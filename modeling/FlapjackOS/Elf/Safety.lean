import FlapjackOS.Elf.Loader

namespace FlapjackOS.Elf

open ElfLoaderBase Frames Machine Paging Runs

variable {arch : Arch} {image : Image arch} {σ : Type} {actions : SubMap → PageActions σ}
  {measure : Measure} {cls : Class} {memory : Memory} {header i left : Nat} {pages : σ} {parser : Parser}

namespace Image

def size (image : Image arch) : Nat := image.modEnd - image.modStart

theorem start_pos (image : Image arch) : 0 < image.window.start := by
  have positive : 0 < kernelVirtualStart arch := by cases arch <;> decide
  exact Nat.lt_add_left image.modStart positive

theorem finish_le (image : Image arch) : image.window.finish ≤ arch.modulus := image.placed

theorem start_add_size (image : Image arch) : image.window.start + image.size = image.window.finish := by
  have ordered := image.ordered
  simp only [window, size]
  omega

theorem covers_iff (image : Image arch) (small : address < arch.modulus) :
    image.window.Covers arch.modulus address count ↔ image.window.Contains address count :=
  Window.covers_iff small image.finish_le (.inl image.start_pos)

end Image

theorem add_lt (arch : Arch) (x y : Nat) : arch.add x y < arch.modulus :=
  Nat.mod_lt _ arch.modulus_pos

theorem getModuleData_bytes (nonempty : 0 < image.size) :
    (getModuleData arch image.toModule).bytes = image.window.start := by
  have sum := image.start_add_size
  have fits := image.finish_le
  exact Arch.add_of_lt (show image.modStart + kernelVirtualStart arch < arch.modulus by
    simp only [Image.window] at sum fits
    omega)

theorem getModuleData_length (image : Image arch) :
    (getModuleData arch image.toModule).length = image.size + 1 := by
  have large : 2 ≤ kernelVirtualStart arch := by cases arch <;> decide
  have ordered := image.ordered
  have placed := image.placed
  have difference : arch.sub (convertPhysicalToLogicalAddress arch image.modEnd)
      (convertPhysicalToLogicalAddress arch image.modStart) = image.size := by
    simp only [convertPhysicalToLogicalAddress, Image.size]
    by_cases top : image.modEnd + kernelVirtualStart arch = arch.modulus
    · have wrapped : arch.add image.modEnd (kernelVirtualStart arch) = 0 := by
        rw [Arch.add_of_le (by omega) (by omega)]
        omega
      rw [wrapped]
      by_cases empty : image.modStart = image.modEnd
      · rw [empty, wrapped, Arch.sub_of_le (by omega) (by omega)]
        omega
      · rw [Arch.add_of_lt (by omega), Arch.sub_of_lt (by omega) (by omega)]
        omega
    · rw [Arch.add_of_lt (by omega), Arch.add_of_lt (by omega), Arch.sub_of_le (by omega) (by omega)]
      omega
  rw [getModuleData, difference, Arch.add_of_lt]
  simp only [Image.size]
  omega

@[simp] theorem ensure_eq_some_iff {condition : Prop} [Decidable condition] :
    ensure condition = some unit ↔ condition := by
  by_cases holds : condition <;> simp [ensure, holds]

/-- A member of a structure at an address is inside the module. -/
def Readable (image : Image arch) (address : Nat) (field : Field) : Prop :=
  image.window.Contains (arch.add address field.offset) field.width

instance : Decidable (Readable image address field) := inferInstanceAs (Decidable (Window.Contains _ _ _))

theorem fetch_eq_some_iff : fetch arch image.window memory address field = some value ↔
    Readable image address field ∧ word arch memory address field = value := by
  rw [fetch, Readable, ← image.covers_iff (add_lt arch address field.offset)]
  split
  case isTrue covers => simp [covers]
  case isFalse outside => simp [outside]

/-- The value of a member of the ELF header. -/
def headerWord (image : Image arch) (memory : Memory) (field : Field) : Nat :=
  word arch memory image.window.start field

theorem readable_header (inside : field.offset + field.width ≤ image.size) (nonempty : 0 < field.width) :
    Readable image image.window.start field := by
  have sum := image.start_add_size
  have fits := image.finish_le
  rw [Readable, Arch.add_of_lt (by omega)]
  exact .inr ⟨by omega, by omega⟩

theorem header_eq (placed : parser.data = image.window.start)
    (inside : field.offset + field.width ≤ image.size) (nonempty : 0 < field.width) :
    parser.header arch image.window memory field = some (headerWord image memory field) := by
  rw [Parser.header, placed, fetch_eq_some_iff]
  exact ⟨readable_header inside nonempty, rfl⟩

/-- The members lie in a header of this class. -/
def Within (cls : Class) (fields : List Field) : Prop :=
  ∀ field ∈ fields, field.offset + field.width ≤ cls.ehdrSize ∧ 0 < field.width

instance : Decidable (Within cls fields) := List.decidableBAll _ fields

theorem header_eq_of_within (placed : parser.data = image.window.start)
    (large : cls.ehdrSize ≤ image.size) (within : Within cls fields) (member : field ∈ fields) :
    parser.header arch image.window memory field = some (headerWord image memory field) := by
  obtain ⟨inside, nonempty⟩ := within field member
  exact header_eq placed (by omega) nonempty

theorem satisfies_eq (placed : parser.data = image.window.start)
    (large : cls.ehdrSize ≤ image.size) {checks : List (Field × Nat)}
    (within : Within cls (checks.map Prod.fst)) :
    parser.satisfies arch image.window memory checks =
      some (checks.all (fun check => headerWord image memory check.1 = check.2)) := by
  induction checks with
  | nil => rfl
  | cons check rest ih =>
    have first : parser.header arch image.window memory check.1 = some (headerWord image memory check.1) :=
      header_eq_of_within placed large within List.mem_cons_self
    have later : Within cls (rest.map Prod.fst) :=
      fun field member => within field (List.mem_cons_of_mem _ member)
    rw [Parser.satisfies, first, List.all_cons]
    by_cases equal : headerWord image memory check.1 = check.2
    · simp [equal, ih later]
    · simp [equal]

/-- The header is one that the loader of this class takes. -/
def Accepts (image : Image arch) (cls : Class) (memory : Memory) : Prop :=
  ∀ check ∈ requirements cls, headerWord image memory check.1 = check.2

instance : Decidable (Accepts image cls memory) := List.decidableBAll _ (requirements cls)

theorem requirements_within (cls : Class) : Within cls ((requirements cls).map Prod.fst) := by
  cases cls <;> decide

theorem createParser_eq (cls : Class) (image : Image arch) :
    createParser cls (getModuleData arch image.toModule) =
      if cls.ehdrSize ≤ image.size then
        some { cls, count := image.size + 1, data := image.window.start }
      else none := by
  have start := image.start_pos
  have positive : 0 < cls.ehdrSize := by cases cls <;> decide
  rw [createParser, getModuleData_length]
  split
  case isTrue large =>
    rw [getModuleData_bytes (by omega)]
    simp [ensure, large, Nat.pos_iff_ne_zero.mp start]
  case isFalse short => simp [ensure, short]

theorem canExec_eq (cls : Class) (memory : Memory) (image : Image arch) :
    canExec arch image.window memory cls (getModuleData arch image.toModule) =
      if cls.ehdrSize ≤ image.size then some (decide (Accepts image cls memory)) else none := by
  rw [canExec, createParser_eq]
  split
  case isTrue large =>
    rw [Option.bind_eq_bind, Option.bind_some, satisfies_eq rfl large (requirements_within cls)]
    apply congrArg some
    rw [Bool.eq_iff_iff, List.all_eq_true, decide_eq_true_iff, Accepts]
    simp only [decide_eq_true_iff]
  case isFalse short => rfl

/-- The factory fails an assertion for a module that is shorter than the header it looks for. -/
theorem createLoader_eq (memory : Memory) (image : Image arch) :
    createLoader arch image.window memory (getModuleData arch image.toModule) =
      if Class.elf32.ehdrSize ≤ image.size then
        if Accepts image .elf32 memory then some (some .elf32)
        else if Class.elf64.ehdrSize ≤ image.size then
          if Accepts image .elf64 memory then some (some .elf64) else some none
        else none
      else none := by
  rw [createLoader, canExec_eq, canExec_eq]
  by_cases room : Class.elf32.ehdrSize ≤ image.size
  · rw [if_pos room, if_pos room]
    by_cases first : Accepts image .elf32 memory
    · simp [first]
    · by_cases more : Class.elf64.ehdrSize ≤ image.size
      · by_cases second : Accepts image .elf64 memory <;> simp [first, more, second]
      · simp [first, more]
  · simp [room]

section

/-- A call of `map_pages`. -/
structure Request where
  begin : Nat
  limit : Nat
  flags : ProtectionFlags

/-- The range passes the assertions of `map_pages`, and the loop over its pages ends. -/
structure Request.Proper (arch : Arch) (request : Request) : Prop where
  aligned : request.begin % pageSize = 0
  ordered : request.begin < request.limit
  terminates : Terminates arch request.begin request.limit

/-- The pages of the range are handed to the sub-map, one after the other. -/
def serve (arch : Arch) (actions : SubMap → PageActions σ) (pages : σ) (request : Request) : Option σ :=
  run ((actions (subMapOf arch request.limit)).fill request.flags) pages
    (visitedPages request.begin request.limit)

theorem mapPages_eq_some_iff {request : Request} (small : request.limit < arch.modulus) :
    (concreteMap arch actions).mapPages arch pages request.begin request.limit request.flags = some next ↔
      request.Proper arch ∧ serve arch actions pages request = some next := by
  constructor
  · intro mapped
    have guarded : request.begin % pageSize = 0 ∧ request.begin < request.limit := by
      by_contra fails
      rw [GenericConcretePhysicalMemoryMap.mapPages, if_neg fails] at mapped
      cases mapped
    obtain ⟨aligned, ordered⟩ := guarded
    rw [concreteMap_mapPages aligned ordered, Paging.forPages_eq (ordered.trans small)] at mapped
    split at mapped
    case isTrue terminates => exact ⟨⟨aligned, ordered, terminates⟩, mapped⟩
    case isFalse => cases mapped
  · rintro ⟨⟨aligned, ordered, terminates⟩, served⟩
    rw [concreteMap_mapPages aligned ordered, Paging.forPages_eq (ordered.trans small), if_pos terminates]
    exact served

variable (arch cls memory header)

/-- The segment as the program header at an address describes it. -/
def segmentStart : Nat := word arch memory header cls.pVaddr % arch.modulus

def memorySize : Nat := word arch memory header cls.pMemsz % arch.modulus

def fileSize : Nat := word arch memory header cls.pFilesz % arch.modulus

def request (flags : ProtectionFlags) : Request where
  begin := segmentStart arch cls memory header
  limit := segmentLimit arch cls (word arch memory header cls.pVaddr) (word arch memory header cls.pMemsz)
  flags := flags

def source (image : Image arch) : Nat :=
  arch.add image.window.start (word arch memory header cls.pOffset)

/-- The memory when the segment has been cleared, and when its contents have been copied. -/
def cleared : Memory :=
  CString.memset arch memory (segmentStart arch cls memory header) 0 (memorySize arch cls memory header)

def copied (image : Image arch) : Memory :=
  CString.memcpy arch memory (segmentStart arch cls memory header) (source arch cls memory header image)
    (fileSize arch cls memory header)

variable {arch cls memory header}

theorem segmentLimit_lt (vaddr memsz : Nat) : segmentLimit arch cls vaddr memsz < arch.modulus :=
  Nat.mod_lt _ arch.modulus_pos

theorem segmentStart_lt : segmentStart arch cls memory header < arch.modulus :=
  Nat.mod_lt _ arch.modulus_pos

theorem wordAdd_eq_add (first : a < m) (second : b < m) (ordered : a < wordAdd m a b) : wordAdd m a b = a + b := by
  by_cases wraps : m ≤ a + b
  · rw [wordAdd_of_le wraps (by omega)] at ordered
    omega
  · exact wordAdd_of_lt (by omega)

/-- One of the two moduli divides the other. -/
theorem segmentLimit_eq_add (vaddrSmall : vaddr < 256 ^ cls.addressWidth)
    (memszSmall : memsz < 256 ^ cls.addressWidth)
    (ordered : vaddr % arch.modulus < segmentLimit arch cls vaddr memsz) :
    segmentLimit arch cls vaddr memsz = vaddr % arch.modulus + memsz % arch.modulus := by
  rw [segmentLimit] at ordered ⊢
  rcases Nat.le_total (256 ^ cls.addressWidth) arch.modulus with narrow | wide
  · rw [Nat.mod_eq_of_lt (show vaddr < arch.modulus by omega)] at ordered ⊢
    rw [Nat.mod_eq_of_lt (show memsz < arch.modulus by omega)]
    have inner : wordAdd (256 ^ cls.addressWidth) vaddr memsz < 256 ^ cls.addressWidth :=
      Nat.mod_lt _ (by omega)
    rw [Nat.mod_eq_of_lt (by omega)] at ordered ⊢
    exact wordAdd_eq_add vaddrSmall memszSmall ordered
  · have divides : arch.modulus ∣ 256 ^ cls.addressWidth := by
      revert wide
      cases arch <;> cases cls <;> decide
    have reduced : wordAdd (256 ^ cls.addressWidth) vaddr memsz % arch.modulus =
        wordAdd arch.modulus (vaddr % arch.modulus) (memsz % arch.modulus) := by
      rw [wordAdd, wordAdd, Nat.mod_mod_of_dvd _ divides, Nat.add_mod]
    rw [reduced] at ordered ⊢
    exact wordAdd_eq_add (Nat.mod_lt _ arch.modulus_pos) (Nat.mod_lt _ arch.modulus_pos) ordered

/-- A range that passes the assertions does not wrap around. -/
theorem request_limit_eq (proper : (request arch cls memory header flags).Proper arch) :
    (request arch cls memory header flags).limit =
      segmentStart arch cls memory header + memorySize arch cls memory header := by
  have widths : cls.pVaddr.width = cls.addressWidth ∧ cls.pMemsz.width = cls.addressWidth := by
    cases cls <;> decide
  apply segmentLimit_eq_add
  · rw [← widths.1]
    exact load_lt
  · rw [← widths.2]
    exact load_lt
  · exact proper.ordered

/-- What a call of `map_pages` makes writable. -/
def Request.window (measure : Measure) (request : Request) : Window where
  start := request.begin
  finish := measure.reach request.limit

theorem Measure.le_reach (measure : Measure) (limit : Nat) : limit ≤ measure.reach limit := by
  cases measure with
  | bytes => exact Nat.le_refl limit
  | pages =>
    simp only [reach, pageSize]
    omega

theorem Request.Proper.finish_lt {request : Request} (proper : request.Proper arch) :
    (request.window measure).finish < arch.modulus := by
  have terminates := proper.terminates
  have whole : arch.modulus % 4096 = 0 := by cases arch <;> decide
  rw [Terminates, proper.aligned] at terminates
  simp only [pageSize] at terminates
  cases measure <;> simp only [window, Measure.reach, pageSize] <;> omega

theorem Request.Proper.covers_iff {request : Request} (proper : request.Proper arch)
    (small : address < arch.modulus) :
    (request.window measure).Covers arch.modulus address count ↔
      (request.window measure).Contains address count :=
  Window.covers_iff small proper.finish_lt.le (.inr proper.finish_lt)

theorem mapSegment_eq_some_iff {state next : LoadState σ} {flags : ProtectionFlags} :
    (ofModule image actions measure cls).mapSegment header flags state = some next ↔
      Readable image header cls.pVaddr ∧ Readable image header cls.pMemsz ∧
      (request arch cls state.memory header flags).Proper arch ∧
      ∃ pages, serve arch actions state.pages (request arch cls state.memory header flags) = some pages ∧
        next = { state with
          pages, writable := (request arch cls state.memory header flags).window measure } := by
  have mapped (pages : σ) :=
    @mapPages_eq_some_iff arch σ actions state.pages pages (request arch cls state.memory header flags)
      (segmentLimit_lt _ _)
  simp only [mapSegment, ofModule_readable, ofModule_cls, ofModule_measure,
    ofModule_physicalMemoryMap_mapPages, Option.bind_eq_bind, Option.bind_eq_some_iff, fetch_eq_some_iff]
  constructor
  · rintro ⟨_, ⟨vaddr, rfl⟩, _, ⟨memsz, rfl⟩, pages, maps, same⟩
    obtain ⟨proper, served⟩ := (mapped pages).mp maps
    exact ⟨vaddr, memsz, proper, pages, served, (Option.some.inj same).symm⟩
  · rintro ⟨vaddr, memsz, proper, pages, served, rfl⟩
    exact ⟨_, ⟨vaddr, rfl⟩, _, ⟨memsz, rfl⟩, pages, (mapped pages).mpr ⟨proper, served⟩, rfl⟩

theorem clearSegment_eq (vaddr : Readable image header cls.pVaddr)
    (memsz : Readable image header cls.pMemsz)
    (proper : (request arch cls memory header flags).Proper arch) :
    (ofModule image actions measure cls).clearSegment header
        ⟨memory, pages, (request arch cls memory header flags).window measure⟩ =
      some ⟨cleared arch cls memory header, pages,
        (request arch cls memory header flags).window measure⟩ := by
  have covers : ((request arch cls memory header flags).window measure).Covers arch.modulus
      (segmentStart arch cls memory header) (memorySize arch cls memory header) := by
    rw [proper.covers_iff segmentStart_lt]
    refine .inr ⟨Nat.le_refl _, ?_⟩
    rw [← request_limit_eq proper]
    exact measure.le_reach _
  simp only [clearSegment, ofModule_readable, ofModule_cls, Option.bind_eq_bind, Option.bind_eq_some_iff,
    fetch_eq_some_iff,
    ensure_eq_some_iff]
  exact ⟨_, ⟨vaddr, rfl⟩, _, ⟨memsz, rfl⟩, (), covers, rfl⟩

theorem copySegment_eq_some_iff {state next : LoadState σ} {request : Request}
    (placed : (getModuleData arch image.toModule).bytes = image.window.start) (proper : request.Proper arch)
    (mapped : state.writable = request.window measure) :
    (ofModule image actions measure cls).copySegment header state = some next ↔
      (Readable image header cls.pVaddr ∧ Readable image header cls.pOffset ∧
        Readable image header cls.pFilesz) ∧
      image.window.Contains (source arch cls state.memory header image)
        (fileSize arch cls state.memory header) ∧
      (request.window measure).Contains (segmentStart arch cls state.memory header)
        (fileSize arch cls state.memory header) ∧
      next = { state with memory := copied arch cls state.memory header image } := by
  have reads := @image.covers_iff arch (source arch cls state.memory header image)
    (fileSize arch cls state.memory header) (add_lt arch _ _)
  have writes := @Request.Proper.covers_iff arch measure (segmentStart arch cls state.memory header)
    (fileSize arch cls state.memory header) request proper segmentStart_lt
  rw [← reads, ← writes, ← mapped]
  simp only [copySegment, ofModule_readable, ofModule_cls, ofModule_image, Option.bind_eq_bind,
    Option.bind_eq_some_iff, fetch_eq_some_iff,
    ensure_eq_some_iff, placed]
  constructor
  · rintro ⟨_, ⟨vaddr, rfl⟩, _, ⟨offset, rfl⟩, _, ⟨filesz, rfl⟩, -, inside, -, writable, same⟩
    exact ⟨⟨vaddr, offset, filesz⟩, inside, writable, (Option.some.inj same).symm⟩
  · rintro ⟨⟨vaddr, offset, filesz⟩, inside, writable, rfl⟩
    exact ⟨_, ⟨vaddr, rfl⟩, _, ⟨offset, rfl⟩, _, ⟨filesz, rfl⟩, (), inside, (), writable, rfl⟩

end

section

variable (image cls memory header)

/-- The memory when the segment of a program header has been loaded. -/
def populated : Memory := copied arch cls (cleared arch cls memory header) header image

/-- The range is mapped writable first, and with the flags of the segment at the end. -/
def firstRequest (arch : Arch) (cls : Class) (memory : Memory) (header : Nat) : Request :=
  request arch cls memory header 10#32

def lastRequest (arch : Arch) (cls : Class) (memory : Memory) (header : Nat) : Request :=
  request arch cls memory header (getProtectionFlags (word arch memory header cls.pFlags))

/-- A program header that describes a segment the loader can load: its members are in the module,
its range can be mapped, and its contents are in the module and fit into the range. The header is
judged as it stands when it is read, because the segment may lie on top of it. -/
structure SegmentSound (measure : Measure) : Prop where
  fields : ∀ field ∈ [cls.pVaddr, cls.pMemsz, cls.pOffset, cls.pFilesz, cls.pFlags],
    Readable image header field
  first : (firstRequest arch cls memory header).Proper arch
  source : image.window.Contains (source arch cls (cleared arch cls memory header) header image)
    (fileSize arch cls (cleared arch cls memory header) header)
  target : ((firstRequest arch cls memory header).window measure).Contains
    (segmentStart arch cls (cleared arch cls memory header) header)
    (fileSize arch cls (cleared arch cls memory header) header)
  last : (lastRequest arch cls (populated image cls memory header) header).Proper arch

variable {image cls memory header}

theorem actionLoad_eq_some_iff {state next : LoadState σ}
    (placed : (getModuleData arch image.toModule).bytes = image.window.start) :
    (ofModule image actions measure cls).actionLoad header state = some next ↔
      SegmentSound image cls state.memory header measure ∧
      ∃ pages, run (serve arch actions) state.pages [firstRequest arch cls state.memory header,
          lastRequest arch cls (populated image cls state.memory header) header] = some pages ∧
        next = {
          memory := populated image cls state.memory header
          pages
          writable := (lastRequest arch cls (populated image cls state.memory header) header).window measure } := by
  simp only [actionLoad, ofModule_readable, ofModule_cls, Option.bind_eq_bind, Option.bind_eq_some_iff,
    fetch_eq_some_iff, mapSegment_eq_some_iff]
  constructor
  · rintro ⟨_, ⟨vaddr, memsz, first, middle, servedFirst, rfl⟩, _, clears, loads⟩
    rw [clearSegment_eq vaddr memsz first] at clears
    obtain rfl := Option.some.inj clears
    obtain ⟨_, copies, _, ⟨flags, rfl⟩, -, -, last, pages, servedLast, rfl⟩ := loads
    rw [copySegment_eq_some_iff placed first rfl] at copies
    obtain ⟨⟨-, offset, filesz⟩, source, target, rfl⟩ := copies
    refine ⟨⟨?_, first, source, target, last⟩, pages, ?_, rfl⟩
    · simp [vaddr, memsz, offset, filesz, flags]
    · exact Option.bind_eq_some_iff.mpr ⟨middle, servedFirst,
        Option.bind_eq_some_iff.mpr ⟨pages, servedLast, rfl⟩⟩
  · rintro ⟨sound, pages, served, rfl⟩
    obtain ⟨middle, servedFirst, served⟩ := Option.bind_eq_some_iff.mp served
    obtain ⟨_, servedLast, same⟩ := Option.bind_eq_some_iff.mp served
    obtain rfl := Option.some.inj same
    have readable := sound.fields
    simp only [List.forall_mem_cons] at readable
    obtain ⟨vaddr, memsz, offset, filesz, flags, -⟩ := readable
    refine ⟨_, ⟨vaddr, memsz, sound.first, middle, servedFirst, rfl⟩, _,
      clearSegment_eq vaddr memsz sound.first, _,
      (copySegment_eq_some_iff placed sound.first rfl).mpr
        ⟨⟨vaddr, offset, filesz⟩, sound.source, sound.target, rfl⟩, _, ⟨flags, rfl⟩,
      vaddr, memsz, sound.last, _, servedLast, rfl⟩

end

section

variable (image cls memory)

/-- The address of a program header. -/
def entry (i : Nat) : Nat :=
  arch.add (arch.add image.window.start (headerWord image memory cls.ePhoff)) (i * cls.phdrSize)

def Loadable (i : Nat) : Prop := word arch memory (entry image cls memory i) pType = ptLoad

instance : Decidable (Loadable image cls memory i) := inferInstanceAs (Decidable (_ = _))

/-- The memory when the program header has been processed. -/
def advance (i : Nat) : Memory :=
  if Loadable image cls memory i then populated image cls memory (entry image cls memory i) else memory

/-- The ranges that the program header has mapped. -/
def entryRequests (i : Nat) : List Request :=
  if Loadable image cls memory i then
    [firstRequest arch cls memory (entry image cls memory i),
      lastRequest arch cls (advance image cls memory i) (entry image cls memory i)]
  else []

/-- A program header that can be processed: the header of the file still counts it and has the
right size for it, its type is in the module, and if it is loadable its segment can be loaded. -/
structure EntrySound (measure : Measure) (i : Nat) : Prop where
  counted : i < headerWord image memory cls.ePhnum
  sized : headerWord image memory cls.ePhentsize = cls.phdrSize
  typed : Readable image (entry image cls memory i) pType
  segment : Loadable image cls memory i →
    SegmentSound image cls memory (entry image cls memory i) measure

/-- The memory when so many program headers, from the given one on, have been processed. -/
def advanced : Nat → Nat → Memory → Memory
  | 0, _, memory => memory
  | count + 1, i, memory => advanced count (i + 1) (advance image cls memory i)

/-- The ranges that they have mapped. -/
def tableRequests : Nat → Nat → Memory → List Request
  | 0, _, _ => []
  | count + 1, i, memory =>
    entryRequests image cls memory i ++ tableRequests count (i + 1) (advance image cls memory i)

variable {image cls memory}

theorem headerFields_within (cls : Class) :
    Within cls [cls.eEntry, cls.ePhoff, cls.ePhentsize, cls.ePhnum] := by
  cases cls <;> decide

theorem getProgramHeader_eq_some_iff (placed : parser.data = image.window.start)
    (large : parser.cls.ehdrSize ≤ image.size) :
    parser.getProgramHeader arch image.window memory i = some header ↔
      (i < headerWord image memory parser.cls.ePhnum ∧
        headerWord image memory parser.cls.ePhentsize = parser.cls.phdrSize) ∧
      entry image parser.cls memory i = header := by
  have known := fun field => @header_eq_of_within _ _ _ memory parser _ field placed large
    (headerFields_within parser.cls)
  simp only [List.mem_cons, forall_eq_or_imp] at known
  obtain ⟨-, offset, size, number, -⟩ := known
  simp only [Parser.getProgramHeader, Parser.getProgramHeaders, number, size, offset, placed,
    Option.bind_eq_bind, Option.bind_some, Option.bind_eq_some_iff, ensure_eq_some_iff]
  constructor
  · rintro ⟨-, counted, -, sized, _, ⟨-, -, table⟩, found⟩
    obtain rfl := Option.some.inj table
    exact ⟨⟨counted, sized⟩, Option.some.inj found⟩
  · rintro ⟨⟨counted, sized⟩, rfl⟩
    exact ⟨(), counted, (), sized, _, ⟨(), sized, rfl⟩, rfl⟩

section
variable (placed : parser.data = image.window.start)
  (same : (getModuleData arch image.toModule).bytes = image.window.start)
  (large : parser.cls.ehdrSize ≤ image.size)
include placed same large

/-- One turn of the loop over the program headers. -/
theorem process_eq_some_iff {state next : LoadState σ} :
    ((parser.getProgramHeader arch image.window state.memory i).bind fun header =>
        (ofModule image actions measure parser.cls).processProgramHeader header state) = some next ↔
      EntrySound image parser.cls state.memory measure i ∧ ∃ pages,
        run (serve arch actions) state.pages (entryRequests image parser.cls state.memory i) = some pages ∧
        next = {
          memory := advance image parser.cls state.memory i
          pages
          writable :=
            if Loadable image parser.cls state.memory i then
              (lastRequest arch parser.cls (advance image parser.cls state.memory i)
                (entry image parser.cls state.memory i)).window measure
            else state.writable } := by
  simp only [Option.bind_eq_some_iff, getProgramHeader_eq_some_iff placed large, processProgramHeader,
    ofModule_readable, Option.bind_eq_bind, fetch_eq_some_iff]
  by_cases loadable : Loadable image parser.cls state.memory i
  · have type : word arch state.memory (entry image parser.cls state.memory i) pType = ptLoad := loadable
    simp only [entryRequests, advance, if_pos loadable]
    constructor
    · rintro ⟨_, ⟨⟨counted, sized⟩, rfl⟩, _, ⟨typed, rfl⟩, loads⟩
      rw [if_pos type, actionLoad_eq_some_iff same] at loads
      obtain ⟨sound, result⟩ := loads
      exact ⟨⟨counted, sized, typed, fun _ => sound⟩, result⟩
    · rintro ⟨sound, result⟩
      refine ⟨_, ⟨⟨sound.counted, sound.sized⟩, rfl⟩, _, ⟨sound.typed, rfl⟩, ?_⟩
      rw [if_pos type, actionLoad_eq_some_iff same]
      exact ⟨sound.segment loadable, result⟩
  · have type : word arch state.memory (entry image parser.cls state.memory i) pType ≠ ptLoad := loadable
    simp only [entryRequests, advance, if_neg loadable]
    constructor
    · rintro ⟨_, ⟨⟨counted, sized⟩, rfl⟩, _, ⟨typed, rfl⟩, skips⟩
      rw [if_neg type] at skips
      obtain rfl := Option.some.inj skips
      exact ⟨⟨counted, sized, typed, fun claimed => absurd claimed loadable⟩, state.pages, rfl, rfl⟩
    · rintro ⟨sound, pages, served, rfl⟩
      refine ⟨_, ⟨⟨sound.counted, sound.sized⟩, rfl⟩, _, ⟨sound.typed, rfl⟩, ?_⟩
      rw [if_neg type, ← Option.some.inj served]

/-- The loop goes right if every header is sound when its turn comes and the memory map can map
all the ranges. -/
theorem enumerate_iff (state : LoadState σ) :
    (∃ final, (ofModule image actions measure parser.cls).enumerate parser left i state = some final) ↔
      (∀ k, k < left → EntrySound image parser.cls (advanced image parser.cls k i state.memory)
        measure (i + k)) ∧
      ∃ pages, run (serve arch actions) state.pages
        (tableRequests image parser.cls left i state.memory) = some pages := by
  induction left generalizing i state with
  | zero => simp [enumerate, tableRequests, run]
  | succ left ih =>
    have step := fun next => @process_eq_some_iff arch image σ actions measure i parser placed
      same large state next
    simp only [enumerate, ofModule_readable, Option.bind_eq_bind, tableRequests, run_append]
    constructor
    · rintro ⟨final, looped⟩
      rw [← Option.bind_assoc] at looped
      obtain ⟨next, here, later⟩ := Option.bind_eq_some_iff.mp looped
      obtain ⟨sound, pages, served, rfl⟩ := (step next).mp here
      obtain ⟨others, last, rest⟩ := (ih _).mp ⟨final, later⟩
      refine ⟨?_, last, Option.bind_eq_some_iff.mpr ⟨pages, served, rest⟩⟩
      intro k bound
      cases k with
      | zero => exact sound
      | succ k =>
        rw [show i + (k + 1) = i + 1 + k by omega]
        exact others k (by omega)
    · rintro ⟨sound, last, served⟩
      obtain ⟨pages, first, rest⟩ := Option.bind_eq_some_iff.mp served
      obtain ⟨next, here, nextMemory, nextPages⟩ : ∃ next : LoadState σ,
          ((parser.getProgramHeader arch image.window state.memory i).bind fun header =>
            (ofModule image actions measure parser.cls).processProgramHeader header state) = some next ∧
          next.memory = advance image parser.cls state.memory i ∧ next.pages = pages :=
        ⟨_, (step _).mpr ⟨sound 0 (by omega), pages, first, rfl⟩, rfl, rfl⟩
      have others : ∀ k, k < left → EntrySound image parser.cls
          (advanced image parser.cls k (i + 1) next.memory) measure (i + 1 + k) := by
        intro k bound
        rw [nextMemory, show i + 1 + k = i + (k + 1) by omega]
        exact sound (k + 1) (by omega)
      rw [← nextMemory, ← nextPages] at rest
      obtain ⟨final, later⟩ := (ih next).mpr ⟨others, last, rest⟩
      refine ⟨final, ?_⟩
      rw [← Option.bind_assoc]
      exact Option.bind_eq_some_iff.mpr ⟨next, here, later⟩

end

end

/-- The loader can load the image: every program header is sound when its turn comes, and the
memory map can map the pages of all the segments. -/
structure Sound (image : Image arch) (cls : Class) (memory : Memory) (actions : SubMap → PageActions σ)
    (measure : Measure) (pages : σ) : Prop where
  entries : ∀ k, k < headerWord image memory cls.ePhnum →
    EntrySound image cls (advanced image cls k 0 memory) measure k
  mapped : ∃ final, run (serve arch actions) pages
    (tableRequests image cls (headerWord image memory cls.ePhnum) 0 memory) = some final

theorem load_iff (large : cls.ehdrSize ≤ image.size) (accepts : Accepts image cls memory) :
    (∃ result, (ofModule image actions measure cls).load
      ⟨memory, pages, writable⟩ = some result) ↔ Sound image cls memory actions measure pages := by
  have positive : 0 < cls.ehdrSize := by cases cls <;> decide
  have bytes := @getModuleData_bytes arch image (by omega)
  have known := fun memory field => @header_eq_of_within _ image cls memory
    { cls, count := image.size + 1, data := image.window.start } _ field rfl large (headerFields_within cls)
  simp only [List.mem_cons, forall_eq_or_imp] at known
  have start := fun memory => (known memory).1
  obtain ⟨-, -, -, number, -⟩ := known memory
  have loop := @enumerate_iff arch image σ actions measure 0 (headerWord image memory cls.ePhnum)
    { cls, count := image.size + 1, data := image.window.start } rfl bytes large
    ⟨memory, pages, writable⟩
  simp only [Nat.zero_add] at loop
  have loads : (∃ result, (ofModule image actions measure cls).load
      ⟨memory, pages, writable⟩ = some result) ↔
      ∃ final, (ofModule image actions measure cls).enumerate
        { cls, count := image.size + 1, data := image.window.start }
        (headerWord image memory cls.ePhnum) 0 ⟨memory, pages, writable⟩ = some final := by
    simp only [ElfLoaderBase.load, ofModule_readable, ofModule_cls, ofModule_image, canExec_eq, createParser_eq,
      if_pos large, Option.bind_eq_bind, Option.bind_some,
      Option.bind_eq_some_iff, ensure_eq_some_iff, decide_eq_true_iff, number, start]
    constructor
    · rintro ⟨result, -, -, final, looped, -⟩
      exact ⟨final, looped⟩
    · rintro ⟨final, looped⟩
      exact ⟨_, (), accepts, final, looped, rfl⟩
  rw [loads, loop]
  exact ⟨fun both => ⟨both.1, both.2⟩, fun sound => ⟨sound.entries, sound.mapped⟩⟩

/-- Either the factory throws, or it hands out a loader whose `load` goes right. -/
def Safe (image : Image arch) (memory : Memory) (actions : SubMap → PageActions σ) (measure : Measure)
    (pages : σ) : Prop :=
  match createLoader arch image.window memory (getModuleData arch image.toModule) with
  | none => False
  | some none => True
  | some (some cls) => ∃ result, (ofModule image actions measure cls).load
      { memory, pages, writable := ⟨0, 0⟩ } = some result

theorem safe_iff_of_accepts (large : Class.elf32.ehdrSize ≤ image.size)
    (accepts : Accepts image .elf32 memory) :
    Safe image memory actions measure pages ↔ Sound image .elf32 memory actions measure pages := by
  rw [Safe, createLoader_eq, if_pos large, if_pos accepts]
  exact load_iff large accepts

/-- Loading is safe exactly if the module is long enough for the headers that the factory looks
at, and the image that is accepted is sound. -/
theorem elf_load_safe_iff (image : Image arch) (memory : Memory) (actions : SubMap → PageActions σ)
    (measure : Measure) (pages : σ) :
    Safe image memory actions measure pages ↔
      Class.elf32.ehdrSize ≤ image.size ∧
      (Accepts image .elf32 memory → Sound image .elf32 memory actions measure pages) ∧
      (¬ Accepts image .elf32 memory → Class.elf64.ehdrSize ≤ image.size ∧
        (Accepts image .elf64 memory → Sound image .elf64 memory actions measure pages)) := by
  by_cases large : Class.elf32.ehdrSize ≤ image.size
  · by_cases first : Accepts image .elf32 memory
    · rw [safe_iff_of_accepts large first]
      simp [large, first]
    · rw [Safe, createLoader_eq, if_pos large, if_neg first]
      by_cases more : Class.elf64.ehdrSize ≤ image.size
      · by_cases second : Accepts image .elf64 memory
        · simp only [if_pos more, if_pos second]
          rw [load_iff more second]
          simp [large, first, more, second]
        · simp [large, first, more, second]
      · simp [first, more]
  · simp [Safe, createLoader_eq, large]

/-- The header of an executable for the i386, and of a loadable segment of three bytes on the page at
`page * 0x10000`, with one byte in the file. -/
def sampleHeader (number : Nat) : List Nat :=
  [0x7f, 0x45, 0x4c, 0x46, 1, 1, 1, 0, 0, 0, 0, 0, 0, 0, 0, 0] ++
  [2, 0, 3, 0, 1, 0, 0, 0, 0, 0, 0x40, 0, 52, 0, 0, 0, 0, 0, 0, 0, 0, 0, 0, 0, 52, 0, 32, 0, number, 0] ++
  [0, 0, 0, 0, 0, 0]

def sampleSegment (offset page : Nat) : List Nat :=
  [1, 0, 0, 0, offset, 0, 0, 0, 0, 0, page, 0, 0, 0, 0, 0, 1, 0, 0, 0, 3, 0, 0, 0, 5, 0, 0, 0, 0, 0, 0, 0]

def sampleImage : Image .i386 where
  modStart := 0x200000
  modEnd := 0x200000 + 84
  ordered := by decide
  placed := by decide

def sampleMemory (offset : Nat) : Memory := fun x =>
  UInt8.ofNat ((sampleHeader 1 ++ sampleSegment offset 0x40).getD (x - sampleImage.window.start) 0)

theorem sampleImage_accepts : Accepts sampleImage .elf32 (sampleMemory 200) := by
  decide +kernel

/-- The contents of the segment are 200 bytes into a module of 84. -/
theorem segment_outside_module : ¬ Safe sampleImage (sampleMemory 200) recorder .pages [] := by
  rw [safe_iff_of_accepts (by decide) sampleImage_accepts]
  intro sound
  have header := sound.entries 0 (by decide +kernel)
  have segment := header.segment (by decide +kernel)
  exact absurd segment.source (by decide +kernel)

end FlapjackOS.Elf
