import FlapjackOS.Elf.Safety

namespace FlapjackOS.Elf

open Frames Machine Paging

/-- The members of a program header that the loader reads. -/
structure ProgramHeader where
  type : Nat
  offset : Nat
  vaddr : Nat
  filesz : Nat
  memsz : Nat
  flags : Nat
  deriving DecidableEq, Repr

namespace ProgramHeader

def read (arch : Arch) (cls : Class) (memory : Memory) (address : Nat) : ProgramHeader where
  type := word arch memory address pType
  offset := word arch memory address cls.pOffset
  vaddr := word arch memory address cls.pVaddr
  filesz := word arch memory address cls.pFilesz
  memsz := word arch memory address cls.pMemsz
  flags := word arch memory address cls.pFlags

variable (segment : ProgramHeader)

/-- The end of the last page of the segment. -/
def pagesEnd : Nat := Measure.pages.reach (segment.vaddr + segment.memsz)

def Apart (other : ProgramHeader) : Prop :=
  segment.pagesEnd ≤ other.vaddr ∨ other.pagesEnd ≤ segment.vaddr

def Holds (x : Nat) : Prop := segment.vaddr ≤ x ∧ x < segment.vaddr + segment.memsz

/-- A segment on pages of the user's, with its contents in the image and its memory outside. -/
structure WellFormed (arch : Arch) (image : Data) : Prop where
  aligned : segment.vaddr % pageSize = 0
  nonempty : 0 < segment.memsz
  filled : segment.filesz ≤ segment.memsz
  inside : segment.offset + segment.filesz ≤ image.length
  user : segment.pagesEnd ≤ kernelVirtualStart arch
  away : segment.vaddr + segment.memsz ≤ image.bytes ∨ image.bytes + image.length ≤ segment.vaddr

/-- The bytes of the file, and zeros behind them. -/
structure Populated (image : Data) (memory final : Memory) : Prop where
  file : ∀ k, k < segment.filesz → final (segment.vaddr + k) = memory (image.bytes + segment.offset + k)
  zeros : ∀ k, segment.filesz ≤ k → k < segment.memsz → final (segment.vaddr + k) = 0

/-- The end of the segment can be told in the type of its address. -/
def Fits (cls : Class) : Prop := segment.vaddr + segment.memsz < 256 ^ cls.addressWidth

instance : Decidable (segment.Fits cls) := Nat.decLt _ _

end ProgramHeader

namespace ElfLoaderBase

variable (loader : ElfLoaderBase arch σ) (memory : Memory)

/-- The parser that the loader makes. -/
@[simps]
def parser : Parser where
  cls := loader.cls
  count := loader.image.length
  data := loader.image.bytes

def headerWord (field : Field) : Nat := word arch memory loader.image.bytes field

/-- Where the program header with an index is. -/
def entry (i : Nat) : Nat :=
  loader.image.bytes + loader.headerWord memory loader.cls.ePhoff + i * loader.cls.phdrSize

def programHeader (i : Nat) : ProgramHeader := .read arch loader.cls memory (loader.entry memory i)

/-- There is a program header with this index, and it is one of a segment to load. -/
def Loads (i : Nat) : Prop :=
  i < loader.headerWord memory loader.cls.ePhnum ∧ (loader.programHeader memory i).type = ptLoad

/-- A well-formed image in memory, which is all that the loader may read. -/
structure WellFormed : Prop where
  placed : loader.image.bytes + loader.image.length ≤ arch.modulus
  readable : loader.readable = loader.image.window
  sized : loader.headerWord memory loader.cls.ePhentsize = loader.cls.phdrSize
  table : loader.headerWord memory loader.cls.ePhoff +
    loader.headerWord memory loader.cls.ePhnum * loader.cls.phdrSize ≤ loader.image.length
  segments : ∀ i, loader.Loads memory i → (loader.programHeader memory i).WellFormed arch loader.image
  disjoint : ∀ i j, loader.Loads memory i → loader.Loads memory j → i ≠ j →
    (loader.programHeader memory i).Apart (loader.programHeader memory j)

/-- `map_pages` makes any pages of the user's ready. -/
def Maps : Prop :=
  ∀ pages begin limit flags, begin % pageSize = 0 → begin < limit → limit ≤ kernelVirtualStart arch →
    ∃ next, loader.physicalMemoryMap.mapPages pages begin limit flags = some next

/-- The segments of the first program headers are loaded, and no other memory has changed. -/
structure Filled (count : Nat) (final : Memory) : Prop where
  populated : ∀ i, loader.Loads memory i → i < count →
    (loader.programHeader memory i).Populated loader.image memory final
  others : ∀ x, (∀ i, loader.Loads memory i → i < count → ¬ (loader.programHeader memory i).Holds x) →
    final x = memory x

/-- The loader returns the entry point and leaves the segments in memory. -/
def LoadsCorrectly (state : LoadState σ) : Prop :=
  ∃ final, loader.load state = some (loader.headerWord state.memory loader.cls.eEntry, final) ∧
    loader.Filled state.memory (loader.headerWord state.memory loader.cls.ePhnum) final.memory

/-- The entry point is an address of this machine, and the end of each segment one of the class. -/
structure Fits : Prop where
  entry : loader.headerWord memory loader.cls.eEntry < arch.modulus
  segments : ∀ i, loader.Loads memory i → (loader.programHeader memory i).Fits loader.cls

end ElfLoaderBase

section

variable {arch : Arch} {image : Data} {segment : ProgramHeader} {memory current : Memory}

/-- What is writable when the segment has been mapped. -/
def ProgramHeader.window (segment : ProgramHeader) (measure : Measure) : Window where
  start := segment.vaddr
  finish := measure.reach (segment.vaddr + segment.memsz)

theorem ProgramHeader.window_covers (measure : Measure) (small : segment.vaddr + count < arch.modulus)
    (inside : count ≤ segment.memsz) :
    (segment.window measure).Covers arch.modulus segment.vaddr count := by
  have reach := measure.le_reach (segment.vaddr + segment.memsz)
  intro k bound
  rw [wordAdd_of_lt (by omega)]
  exact ⟨Nat.le_add_right _ k, show segment.vaddr + k < measure.reach _ by omega⟩

section
variable (wellFormed : segment.WellFormed arch image)
include wellFormed

theorem ProgramHeader.WellFormed.limit_le :
    segment.vaddr + segment.memsz ≤ kernelVirtualStart arch :=
  (Measure.le_reach .pages _).trans wellFormed.user

theorem ProgramHeader.WellFormed.limit_lt : segment.vaddr + segment.memsz < arch.modulus :=
  wellFormed.limit_le.trans_lt (by cases arch <;> decide)

end

/-- The memory when the segment has been cleared and its contents have been copied. -/
def ProgramHeader.populate (segment : ProgramHeader) (arch : Arch) (image : Data) (memory : Memory) : Memory :=
  CString.memcpy arch (CString.memset arch memory segment.vaddr 0 segment.memsz) segment.vaddr
    (image.bytes + segment.offset) segment.filesz

theorem ProgramHeader.populate_outside (wellFormed : segment.WellFormed arch image)
    (outside : ¬ segment.Holds x) : segment.populate arch image memory x = memory x := by
  have small := wellFormed.limit_lt
  have filled := wellFormed.filled
  rw [Holds] at outside
  rw [populate, CString.memcpy_outside (by omega) (by omega), CString.memset_outside (by omega) (by omega)]

theorem ProgramHeader.populate_spec (wellFormed : segment.WellFormed arch image)
    (placed : image.bytes + image.length ≤ arch.modulus) :
    segment.Populated image memory (segment.populate arch image memory) := by
  have small := wellFormed.limit_lt
  obtain ⟨-, -, filled, inside, -, away⟩ := wellFormed
  refine ⟨?_, ?_⟩
  · intro k copied
    rw [populate, CString.memcpy_inside (by omega) (by omega) (by omega) copied,
      CString.memset_outside (by omega) (by omega)]
  · intro k behind cleared
    rw [populate, CString.memcpy_outside (by omega) (by omega), CString.memset_inside (by omega) cleared]

theorem ProgramHeader.WellFormed.keeps (wellFormed : segment.WellFormed arch image)
    (same : ∀ x, ¬ segment.Holds x → current x = memory x) : image.window.Agrees memory current := by
  have away := wellFormed.away
  intro x inside
  rw [Data.holds_window_iff] at inside
  apply same
  rw [Holds]
  omega

theorem ProgramHeader.Populated.mono (populated : segment.Populated image memory current)
    (filled : segment.filesz ≤ segment.memsz) (same : ∀ x, segment.Holds x → final x = current x) :
    segment.Populated image memory final := by
  obtain ⟨file, zeros⟩ := populated
  refine ⟨?_, ?_⟩
  · intro k copied
    rw [same _ ⟨by omega, by omega⟩]
    exact file k copied
  · intro k behind cleared
    rw [same _ ⟨by omega, by omega⟩]
    exact zeros k behind cleared

theorem ProgramHeader.Populated.congr (populated : segment.Populated image current final)
    (wellFormed : segment.WellFormed arch image) (keeps : image.window.Agrees memory current) :
    segment.Populated image memory final := by
  obtain ⟨file, zeros⟩ := populated
  have inside := wellFormed.inside
  refine ⟨?_, zeros⟩
  intro k copied
  rw [file k copied]
  exact keeps _ (Data.holds_window_iff.mpr ⟨by omega, by omega⟩)

end

namespace ElfLoaderBase

variable {arch : Arch} {σ : Type} {loader : ElfLoaderBase arch σ} {memory : Memory} {state : LoadState σ}
  {i left : Nat}

/-- The loader reads the members of a segment at an address. -/
structure Describes (loader : ElfLoaderBase arch σ) (memory : Memory) (header : Nat)
    (segment : ProgramHeader) : Prop where
  type : fetch arch loader.readable memory header pType = some segment.type
  offset : fetch arch loader.readable memory header loader.cls.pOffset = some segment.offset
  vaddr : fetch arch loader.readable memory header loader.cls.pVaddr = some segment.vaddr
  filesz : fetch arch loader.readable memory header loader.cls.pFilesz = some segment.filesz
  memsz : fetch arch loader.readable memory header loader.cls.pMemsz = some segment.memsz
  flags : fetch arch loader.readable memory header loader.cls.pFlags = some segment.flags

section

variable (wellFormed : loader.WellFormed memory) (keeps : loader.image.window.Agrees memory current)

include wellFormed keeps

/-- It does not matter when a member that is in the image is read. -/
theorem fetch_eq (low : loader.image.bytes ≤ address)
    (high : address + field.offset + field.width ≤ loader.image.bytes + loader.image.length)
    (nonempty : 0 < field.width) :
    fetch arch loader.readable current address field = some (word arch memory address field) := by
  have placed := wellFormed.placed
  have first : arch.add address field.offset = address + field.offset := Arch.add_of_lt (by omega)
  have covers : loader.readable.Covers arch.modulus (arch.add address field.offset) field.width := by
    intro k inside
    rw [wellFormed.readable, first, wordAdd_of_lt (by omega)]
    exact Data.holds_window_iff.mpr ⟨by omega, by omega⟩
  have same : word arch current address field = word arch memory address field := by
    apply load_congr
    intro x above below
    exact keeps x (Data.holds_window_iff.mpr ⟨by omega, by omega⟩)
  rw [fetch, if_pos covers, same]

theorem header_eq (large : loader.cls.ehdrSize < loader.image.length)
    (member : field ∈ [loader.cls.eEntry, loader.cls.ePhoff, loader.cls.ePhentsize, loader.cls.ePhnum]) :
    loader.parser.header arch loader.readable current field = some (loader.headerWord memory field) := by
  obtain ⟨inside, nonempty⟩ := headerFields_within loader.cls field member
  rw [Parser.header, parser_data]
  exact fetch_eq wellFormed keeps (Nat.le_refl _) (by omega) nonempty

omit keeps in
theorem entry_inside (counted : i < loader.headerWord memory loader.cls.ePhnum) :
    loader.entry memory i + loader.cls.phdrSize ≤ loader.image.bytes + loader.image.length := by
  have table := wellFormed.table
  have rows : (i + 1) * loader.cls.phdrSize ≤
      loader.headerWord memory loader.cls.ePhnum * loader.cls.phdrSize := Nat.mul_le_mul_right _ counted
  rw [Nat.add_one_mul] at rows
  rw [entry]
  omega

theorem getProgramHeader_eq (large : loader.cls.ehdrSize < loader.image.length)
    (counted : i < loader.headerWord memory loader.cls.ePhnum) :
    loader.parser.getProgramHeader arch loader.readable current i = some (loader.entry memory i) := by
  have known : ∀ field ∈ [loader.cls.eEntry, loader.cls.ePhoff, loader.cls.ePhentsize, loader.cls.ePhnum],
      loader.parser.header arch loader.readable current field = some (loader.headerWord memory field) :=
    fun _ member => header_eq wellFormed keeps large member
  simp only [List.forall_mem_cons] at known
  obtain ⟨-, offset, size, number, -⟩ := known
  have positive : 0 < loader.cls.phdrSize := by cases loader.cls <;> decide
  have inside := entry_inside wellFormed counted
  have placed := wellFormed.placed
  have place : arch.add (arch.add loader.image.bytes (loader.headerWord memory loader.cls.ePhoff))
      (i * loader.cls.phdrSize) = loader.entry memory i := by
    rw [entry] at inside ⊢
    exact Arch.add_add_of_lt (by omega)
  simp [Parser.getProgramHeader, Parser.getProgramHeaders, number, size, offset, ensure, counted,
    wellFormed.sized, place]

theorem describes_programHeader (counted : i < loader.headerWord memory loader.cls.ePhnum) :
    loader.Describes current (loader.entry memory i) (loader.programHeader memory i) := by
  have inside := entry_inside wellFormed counted
  have low : loader.image.bytes ≤ loader.entry memory i := by
    rw [entry]
    omega
  have within : ∀ field ∈ [pType, loader.cls.pOffset, loader.cls.pVaddr, loader.cls.pFilesz,
      loader.cls.pMemsz, loader.cls.pFlags],
      field.offset + field.width ≤ loader.cls.phdrSize ∧ 0 < field.width := by
    cases loader.cls <;> decide
  have known : ∀ field ∈ [pType, loader.cls.pOffset, loader.cls.pVaddr, loader.cls.pFilesz,
      loader.cls.pMemsz, loader.cls.pFlags],
      fetch arch loader.readable current (loader.entry memory i) field =
        some (word arch memory (loader.entry memory i) field) := by
    intro field member
    obtain ⟨fits, nonempty⟩ := within field member
    exact fetch_eq wellFormed keeps low (by omega) nonempty
  simp only [List.forall_mem_cons] at known
  obtain ⟨type, offset, vaddr, filesz, memsz, flags, -⟩ := known
  exact ⟨type, offset, vaddr, filesz, memsz, flags⟩

end

section
variable {segment : ProgramHeader}

section
variable (described : loader.Describes state.memory place segment)
  (wellFormed : segment.WellFormed arch loader.image)

include described wellFormed

theorem mapSegment_eq (flags : ProtectionFlags) :
    loader.mapSegment place flags state =
      (loader.physicalMemoryMap.mapPages state.pages segment.vaddr
        (segmentLimit arch loader.cls segment.vaddr segment.memsz) flags).map fun pages =>
        { state with
          pages
          writable := ⟨segment.vaddr,
            loader.measure.reach (segmentLimit arch loader.cls segment.vaddr segment.memsz)⟩ } := by
  have small := wellFormed.limit_lt
  have start : segment.vaddr % arch.modulus = segment.vaddr := Nat.mod_eq_of_lt (by omega)
  simp only [mapSegment, described.vaddr, described.memsz, start, Option.bind_eq_bind, Option.bind_some,
    Option.pure_def]
  exact (Option.map_eq_bind ..).symm

theorem mapSegment_of_fits (maps : loader.Maps) (fits : segment.Fits loader.cls)
    (flags : ProtectionFlags) :
    ∃ pages, loader.mapSegment place flags state = some { state with
      pages, writable := segment.window loader.measure } := by
  have nonempty := wellFormed.nonempty
  obtain ⟨pages, mapped⟩ := maps state.pages segment.vaddr (segment.vaddr + segment.memsz) flags
    wellFormed.aligned (by omega) wellFormed.limit_le
  refine ⟨pages, ?_⟩
  rw [mapSegment_eq described wellFormed, segmentLimit, wordAdd_of_lt fits, Nat.mod_eq_of_lt wellFormed.limit_lt,
    mapped]
  rfl

theorem clearSegment_eq (mapped : state.writable = segment.window loader.measure) :
    loader.clearSegment place state = some { state with
      memory := CString.memset arch state.memory segment.vaddr 0 segment.memsz } := by
  have small := wellFormed.limit_lt
  have covers : state.writable.Covers arch.modulus segment.vaddr segment.memsz := by
    rw [mapped]
    exact ProgramHeader.window_covers _ small (Nat.le_refl _)
  have start : segment.vaddr % arch.modulus = segment.vaddr := Nat.mod_eq_of_lt (by omega)
  have size : segment.memsz % arch.modulus = segment.memsz := Nat.mod_eq_of_lt (by omega)
  simp [clearSegment, described.vaddr, described.memsz, start, size, ensure, covers]

theorem copySegment_eq (image : loader.WellFormed memory)
    (mapped : state.writable = segment.window loader.measure) :
    loader.copySegment place state = some { state with
      memory := CString.memcpy arch state.memory segment.vaddr (loader.image.bytes + segment.offset)
        segment.filesz } := by
  obtain ⟨-, offset, vaddr, filesz, -, -⟩ := described
  have small := wellFormed.limit_lt
  have filled := wellFormed.filled
  have inside := wellFormed.inside
  have placed := image.placed
  have start : segment.vaddr % arch.modulus = segment.vaddr := Nat.mod_eq_of_lt (by omega)
  have size : segment.filesz % arch.modulus = segment.filesz := Nat.mod_eq_of_lt (by omega)
  by_cases empty : segment.filesz = 0
  · have none (window : Window) (address : Nat) : window.Covers arch.modulus address 0 :=
      fun k bound => absurd bound (Nat.not_lt_zero k)
    simp [copySegment, vaddr, offset, filesz, empty, ensure, none, CString.memcpy]
  · have source : arch.add loader.image.bytes segment.offset = loader.image.bytes + segment.offset :=
      Arch.add_of_lt (by omega)
    have reads : loader.readable.Covers arch.modulus (loader.image.bytes + segment.offset)
        segment.filesz := by
      intro k bound
      rw [image.readable, wordAdd_of_lt (by omega)]
      exact Data.holds_window_iff.mpr ⟨by omega, by omega⟩
    have writes : state.writable.Covers arch.modulus segment.vaddr segment.filesz := by
      rw [mapped]
      exact ProgramHeader.window_covers _ (by omega) filled
    simp [copySegment, vaddr, offset, filesz, start, size, source, ensure, reads, writes]

/-- A segment whose end does not fit is mapped nowhere, and cannot be cleared. -/
theorem actionLoad_of_wraps (vaddr : segment.vaddr < 256 ^ loader.cls.addressWidth)
    (memsz : segment.memsz < 256 ^ loader.cls.addressWidth) (wraps : ¬ segment.Fits loader.cls) :
    loader.actionLoad place state = none := by
  have small := wellFormed.limit_lt
  have limit : segmentLimit arch loader.cls segment.vaddr segment.memsz < segment.vaddr := by
    rw [ProgramHeader.Fits] at wraps
    rw [segmentLimit, wordAdd_of_le (by omega) (by omega), Nat.mod_eq_of_lt (by omega)]
    omega
  have nonempty := wellFormed.nonempty
  have aligned := wellFormed.aligned
  -- The first byte of the segment is already behind the last page that is mapped.
  have reach : loader.measure.reach (segmentLimit arch loader.cls segment.vaddr segment.memsz) ≤
      segment.vaddr := by
    cases loader.measure with
    | bytes => exact limit.le
    | pages =>
      simp only [pageSize] at aligned
      simp only [Measure.reach, pageSize]
      omega
  rw [actionLoad, mapSegment_eq described wellFormed]
  generalize segmentLimit arch loader.cls segment.vaddr segment.memsz = finish at *
  cases loader.physicalMemoryMap.mapPages state.pages segment.vaddr finish 10#32 with
  | none => rfl
  | some pages =>
    have outside : ¬ Window.Covers ⟨segment.vaddr, loader.measure.reach finish⟩ arch.modulus
        (segment.vaddr % arch.modulus) (segment.memsz % arch.modulus) := by
      intro covers
      rw [Nat.mod_eq_of_lt (by omega), Nat.mod_eq_of_lt (by omega)] at covers
      have first := (covers 0 nonempty).2
      rw [wordAdd_of_lt (by omega)] at first
      simp only at first
      omega
    simp [clearSegment, described.vaddr, described.memsz, ensure, outside]

end

theorem actionLoad_of_fits (image : loader.WellFormed memory)
    (keeps : loader.image.window.Agrees memory state.memory) (wellFormed : segment.WellFormed arch loader.image)
    (described : ∀ current, loader.image.window.Agrees memory current → loader.Describes current place segment)
    (maps : loader.Maps) (fits : segment.Fits loader.cls) :
    ∃ next, loader.actionLoad place state = some next ∧
      next.memory = segment.populate arch loader.image state.memory := by
  have small := wellFormed.limit_lt
  obtain ⟨pages, mapped⟩ := mapSegment_of_fits (described _ keeps) wellFormed maps fits 10#32
  have cleared : loader.image.window.Agrees memory
      (CString.memset arch state.memory segment.vaddr 0 segment.memsz) := by
    apply keeps.trans
    apply wellFormed.keeps
    intro x outside
    rw [ProgramHeader.Holds] at outside
    exact CString.memset_outside (by omega) (by omega)
  have populated : loader.image.window.Agrees memory (segment.populate arch loader.image state.memory) :=
    keeps.trans (wellFormed.keeps fun x outside => ProgramHeader.populate_outside wellFormed outside)
  have result := described _ populated
  obtain ⟨last, remapped⟩ := @mapSegment_of_fits _ _ _ _ ⟨_, pages, segment.window loader.measure⟩
    _ result wellFormed maps fits (getProtectionFlags segment.flags)
  refine ⟨⟨segment.populate arch loader.image state.memory, last, segment.window loader.measure⟩, ?_, rfl⟩
  have clears := @clearSegment_eq _ _ _ _ ⟨_, pages, segment.window loader.measure⟩
    _ (described _ keeps) wellFormed rfl
  have copies := @copySegment_eq _ _ _ _ _ ⟨_, pages, segment.window loader.measure⟩
    _ (described _ cleared) wellFormed image rfl
  simp only [actionLoad, mapped, clears, copies, Option.bind_eq_bind, Option.bind_some]
  rw [← ProgramHeader.populate, result.flags, Option.bind_some]
  exact remapped

end

section

variable (wellFormed : loader.WellFormed memory)

include wellFormed

theorem Filled.keeps (filled : loader.Filled memory i current) : loader.image.window.Agrees memory current := by
  intro x inside
  rw [Data.holds_window_iff] at inside
  apply filled.others
  intro j loads _ holds
  have away := (wellFormed.segments j loads).away
  rw [ProgramHeader.Holds] at holds
  omega

omit wellFormed in
theorem Filled.skip (filled : loader.Filled memory i current) (skipped : ¬ loader.Loads memory i) :
    loader.Filled memory (i + 1) current := by
  have before (j : Nat) (loads : loader.Loads memory j) (bound : j < i + 1) : j < i := by
    have different : j ≠ i := fun same => skipped (same ▸ loads)
    omega
  refine ⟨?_, ?_⟩
  · intro j loads bound
    exact filled.populated j loads (before j loads bound)
  · intro x outside
    apply filled.others
    intro j loads bound
    exact outside j loads (by omega)

/-- The segment is loaded beside those that are there already. -/
theorem Filled.populate (filled : loader.Filled memory i current) (loads : loader.Loads memory i) :
    loader.Filled memory (i + 1) ((loader.programHeader memory i).populate arch loader.image current) := by
  have segment := wellFormed.segments i loads
  refine ⟨?_, ?_⟩
  · intro j earlier bound
    by_cases last : j = i
    · subst last
      exact (ProgramHeader.populate_spec segment wellFormed.placed).congr segment (filled.keeps wellFormed)
    · have other := wellFormed.segments j earlier
      apply (filled.populated j earlier (by omega)).mono other.filled
      intro x holds
      apply ProgramHeader.populate_outside segment
      intro both
      have reach := Measure.le_reach .pages
      have first := reach ((loader.programHeader memory i).vaddr + (loader.programHeader memory i).memsz)
      have second := reach ((loader.programHeader memory j).vaddr + (loader.programHeader memory j).memsz)
      rw [ProgramHeader.Holds] at holds both
      rcases wellFormed.disjoint i j loads earlier (Ne.symm last) with apart | apart
      all_goals
        rw [ProgramHeader.pagesEnd] at apart
        omega
  · intro x outside
    rw [ProgramHeader.populate_outside segment (outside i loads (by omega))]
    apply filled.others
    intro j earlier bound
    exact outside j earlier (by omega)

/-- One turn of the loop over the program headers. -/
theorem process_of_fits (maps : loader.Maps) (counted : i < loader.headerWord memory loader.cls.ePhnum)
    (fits : loader.Loads memory i → (loader.programHeader memory i).Fits loader.cls)
    (filled : loader.Filled memory i state.memory) :
    ∃ next, loader.processProgramHeader (loader.entry memory i) state = some next ∧
      loader.Filled memory (i + 1) next.memory := by
  have keeps := filled.keeps wellFormed
  have type := (describes_programHeader wellFormed keeps counted).type
  by_cases loadable : (loader.programHeader memory i).type = ptLoad
  · have loads : loader.Loads memory i := ⟨counted, loadable⟩
    obtain ⟨next, loaded, contents⟩ := actionLoad_of_fits wellFormed keeps (wellFormed.segments i loads)
      (fun _ kept => describes_programHeader wellFormed kept counted) maps (fits loads)
    refine ⟨next, ?_, ?_⟩
    · simp [processProgramHeader, type, loadable, loaded]
    · rw [contents]
      exact filled.populate wellFormed loads
  · refine ⟨state, ?_, filled.skip fun loads => loadable loads.2⟩
    simp [processProgramHeader, type, loadable]

variable (large : loader.cls.ehdrSize < loader.image.length)

include large

theorem enumerate_of_fits (maps : loader.Maps)
    (fits : ∀ i, loader.Loads memory i → (loader.programHeader memory i).Fits loader.cls)
    (rest : i + left = loader.headerWord memory loader.cls.ePhnum)
    (filled : loader.Filled memory i state.memory) :
    ∃ final, loader.enumerate loader.parser left i state = some final ∧
      loader.Filled memory (loader.headerWord memory loader.cls.ePhnum) final.memory := by
  induction left generalizing i state with
  | zero => exact ⟨state, rfl, by rwa [← rest]⟩
  | succ left ih =>
    have found := getProgramHeader_eq wellFormed (filled.keeps wellFormed) large
      (show i < loader.headerWord memory loader.cls.ePhnum by omega)
    obtain ⟨next, processed, later⟩ := process_of_fits wellFormed maps (by omega) (fits i) filled
    obtain ⟨final, looped, done⟩ := ih (by omega) later
    refine ⟨final, ?_, done⟩
    simp [enumerate, found, processed, looped]

theorem fits_of_enumerate (maps : loader.Maps) (rest : i + left = loader.headerWord memory loader.cls.ePhnum)
    (filled : loader.Filled memory i state.memory)
    (looped : loader.enumerate loader.parser left i state = some final) :
    ∀ j, i ≤ j → loader.Loads memory j → (loader.programHeader memory j).Fits loader.cls := by
  induction left generalizing i state with
  | zero =>
    intro j low loads
    have counted := loads.1
    omega
  | succ left ih =>
    have counted : i < loader.headerWord memory loader.cls.ePhnum := by omega
    have found := getProgramHeader_eq wellFormed (filled.keeps wellFormed) large counted
    simp only [enumerate, found, Option.bind_eq_bind, Option.bind_some] at looped
    obtain ⟨next, processed, looped⟩ := Option.bind_eq_some_iff.mp looped
    have here : loader.Loads memory i → (loader.programHeader memory i).Fits loader.cls := by
      intro loads
      have described := describes_programHeader wellFormed (filled.keeps wellFormed) counted
      have widths : loader.cls.pVaddr.width = loader.cls.addressWidth ∧
          loader.cls.pMemsz.width = loader.cls.addressWidth := by
        cases loader.cls <;> decide
      by_contra wraps
      have fails := actionLoad_of_wraps described (wellFormed.segments i loads) (widths.1 ▸ load_lt)
        (widths.2 ▸ load_lt) wraps
      simp [processProgramHeader, described.type, loads.2, fails] at processed
    obtain ⟨_, again, later⟩ := process_of_fits wellFormed maps counted here filled
    obtain rfl := Option.some.inj (again.symm.trans processed)
    intro j low loads
    by_cases first : j = i
    · subst first
      exact here loads
    · exact ih (by omega) later looped j (by omega) loads

end

theorem parser_of_canExec (accepted : canExec arch loader.readable memory loader.cls loader.image = some true) :
    createParser loader.cls loader.image = some loader.parser ∧
      loader.cls.ehdrSize < loader.image.length := by
  rw [canExec, Option.bind_eq_bind] at accepted
  obtain ⟨parser, made, -⟩ := Option.bind_eq_some_iff.mp accepted
  have checked := made
  simp only [createParser, Option.bind_eq_bind, Option.bind_eq_some_iff, ensure_eq_some_iff] at checked
  obtain ⟨-, large, -, -, same⟩ := checked
  exact ⟨made.trans same.symm, large⟩

theorem load_eq (wellFormed : loader.WellFormed state.memory)
    (accepted : canExec arch loader.readable state.memory loader.cls loader.image = some true) :
    loader.load state =
      (loader.enumerate loader.parser (loader.headerWord state.memory loader.cls.ePhnum) 0 state).bind fun final =>
        (loader.parser.header arch loader.readable final.memory loader.cls.eEntry).map fun start =>
        (start % arch.modulus, final) := by
  obtain ⟨made, large⟩ := parser_of_canExec accepted
  have number : loader.parser.header arch loader.readable state.memory loader.cls.ePhnum =
      some (loader.headerWord state.memory loader.cls.ePhnum) :=
    header_eq wellFormed (fun _ _ => rfl) large (by simp)
  simp only [load, accepted, made, number, ensure, Option.bind_eq_bind, Option.bind_some, if_true,
    Option.pure_def, Option.map_eq_bind]
  rfl

theorem nothing_filled : loader.Filled memory 0 memory :=
  ⟨fun _ _ none => absurd none (Nat.not_lt_zero _), fun _ _ => rfl⟩

theorem fits_of_load (wellFormed : loader.WellFormed state.memory) (maps : loader.Maps)
    (accepted : canExec arch loader.readable state.memory loader.cls loader.image = some true)
    (loaded : loader.load state = some result)
    (loads : loader.Loads state.memory i) : (loader.programHeader state.memory i).Fits loader.cls := by
  rw [load_eq wellFormed accepted] at loaded
  obtain ⟨_, looped, -⟩ := Option.bind_eq_some_iff.mp loaded
  exact fits_of_enumerate wellFormed (parser_of_canExec accepted).2 maps (Nat.zero_add _) nothing_filled
    looped i (Nat.zero_le i) loads

/-- An image that is well-formed is loaded as its headers say exactly if the ends of its segments
and its entry point fit the types that they are given. -/
theorem load_correct_iff (loader : ElfLoaderBase arch σ) (state : LoadState σ)
    (wellFormed : loader.WellFormed state.memory) (maps : loader.Maps)
    (accepted : canExec arch loader.readable state.memory loader.cls loader.image = some true) :
    loader.LoadsCorrectly state ↔ loader.Fits state.memory := by
  obtain ⟨-, large⟩ := parser_of_canExec accepted
  have start (final : Memory) (keeps : loader.image.window.Agrees state.memory final) :
      loader.parser.header arch loader.readable final loader.cls.eEntry = some
        (loader.headerWord state.memory loader.cls.eEntry) :=
    header_eq wellFormed keeps large (by simp)
  constructor
  · rintro ⟨final, loaded, filled⟩
    refine ⟨?_, fun i loads => fits_of_load wellFormed maps accepted loaded loads⟩
    rw [load_eq wellFormed accepted] at loaded
    obtain ⟨_, -, returned⟩ := Option.bind_eq_some_iff.mp loaded
    obtain ⟨entry, -, same⟩ := Option.map_eq_some_iff.mp returned
    rw [← (Prod.mk.inj same).1]
    exact Nat.mod_lt _ arch.modulus_pos
  · rintro ⟨entry, segments⟩
    obtain ⟨final, looped, filled⟩ :=
      enumerate_of_fits wellFormed large maps segments (Nat.zero_add _) nothing_filled
    refine ⟨final, ?_, filled⟩
    rw [load_eq wellFormed accepted, looped, Option.bind_some, start _ (filled.keeps wellFormed),
      Option.map_some, Nat.mod_eq_of_lt entry]

theorem WellFormed.fits (wellFormed : loader.WellFormed memory)
    (native : loader.cls.addressWidth = arch.wordBytes) : loader.Fits memory := by
  have width : loader.cls.eEntry.width = arch.wordBytes := native
  refine ⟨?_, ?_⟩
  · rw [Arch.modulus, ← width]
    exact load_lt
  · intro i loads
    rw [ProgramHeader.Fits, native]
    exact (wellFormed.segments i loads).limit_lt

/-- An executable of the 32-bit class with two program headers: of a segment that has one byte in
the file, and of a note. -/
def sampleExecutable (vaddr memsz : List Nat) : List Nat :=
  sampleHeader 2 ++
  [1, 0, 0, 0, 0, 0, 0, 0] ++ vaddr ++ [0, 0, 0, 0, 1, 0, 0, 0] ++ memsz ++ [5, 0, 0, 0, 0, 16, 0, 0] ++
  [4, 0, 0, 0, 0, 0, 0, 0] ++ vaddr ++ [0, 0, 0, 0, 1, 0, 0, 0] ++ memsz ++ [4, 0, 0, 0, 0, 0, 0, 0]

def sampleContents (vaddr memsz : List Nat) : Memory := fun x =>
  UInt8.ofNat ((sampleExecutable vaddr memsz).getD (x - 0x1000000) 0)

def sampleLoader (arch : Arch) : ElfLoaderBase arch Unit where
  cls := .elf32
  physicalMemoryMap := {
    mapPages := fun _ _ _ _ => some ()
    mapPage := fun _ _ _ _ => some ()
    setReadonly := fun _ _ _ => some () }
  image := { length := 116, bytes := 0x1000000 }
  readable := ⟨0x1000000, 0x1000000 + 116⟩
  measure := .bytes

theorem sampleLoader_maps (arch : Arch) : (sampleLoader arch).Maps :=
  fun _ _ _ _ _ _ _ => ⟨(), rfl⟩

theorem sampleLoader_wellFormed
    (number : (sampleLoader arch).headerWord memory Class.elf32.ePhnum = 2)
    (note : ((sampleLoader arch).programHeader memory 1).type = 4)
    (sized : (sampleLoader arch).headerWord memory Class.elf32.ePhentsize = 32)
    (offset : (sampleLoader arch).headerWord memory Class.elf32.ePhoff = 52)
    (segment : ((sampleLoader arch).programHeader memory 0).WellFormed arch (sampleLoader arch).image) :
    (sampleLoader arch).WellFormed memory := by
  have first (i : Nat) (loads : (sampleLoader arch).Loads memory i) : i = 0 := by
    obtain ⟨counted, loadable⟩ := loads
    have bound : i < 2 := number ▸ counted
    by_contra later
    obtain rfl : i = 1 := by omega
    rw [note] at loadable
    cases loadable
  refine ⟨?_, rfl, sized, ?_, ?_, ?_⟩
  · exact (show 0x1000000 + 116 ≤ 4294967296 by omega).trans arch.modulus_large
  · change (sampleLoader arch).headerWord memory Class.elf32.ePhoff +
      (sampleLoader arch).headerWord memory Class.elf32.ePhnum * 32 ≤ 116
    rw [offset, number]
  · intro i loads
    rw [first i loads]
    exact segment
  · intro i j loads other different
    exact absurd ((first i loads).trans (first j other).symm) different

/-- A segment of three bytes at `0x400000`. -/
def nativeState : LoadState Unit := ⟨sampleContents [0, 0, 0x40, 0] [3, 0, 0, 0], (), ⟨0, 0⟩⟩

theorem native_wellFormed : (sampleLoader .i386).WellFormed nativeState.memory := by
  refine sampleLoader_wellFormed (by decide +kernel) (by decide +kernel) (by decide +kernel)
    (by decide +kernel) ?_
  rw [show (sampleLoader .i386).programHeader nativeState.memory 0 = ⟨1, 0, 0x400000, 1, 3, 5⟩ by decide +kernel]
  exact ⟨by decide, by decide, by decide, by decide, by decide, .inl (by decide)⟩

theorem load_correct_sample : (sampleLoader .i386).LoadsCorrectly nativeState :=
  (load_correct_iff (sampleLoader .i386) nativeState native_wellFormed (sampleLoader_maps .i386)
    (by decide +kernel)).mpr (native_wellFormed.fits rfl)

/-- A segment on the last page below four gigabytes. -/
def lastPageState : LoadState Unit :=
  ⟨sampleContents [0, 0xf0, 0xff, 0xff] [0, 0x10, 0, 0], (), ⟨0, 0⟩⟩

theorem lastPage_header :
    (sampleLoader .x86_64).programHeader lastPageState.memory 0 = ⟨1, 0, 0xfffff000, 1, 0x1000, 5⟩ := by
  decide +kernel

theorem lastPage_wellFormed : (sampleLoader .x86_64).WellFormed lastPageState.memory := by
  refine sampleLoader_wellFormed (by decide +kernel) (by decide +kernel) (by decide +kernel)
    (by decide +kernel) ?_
  rw [lastPage_header]
  exact ⟨by decide, by decide, by decide, by decide, by decide, .inr (by decide)⟩

/-- The kernel of the x86_64 takes the end of that segment of a 32-bit image for zero. -/
theorem last_page_not_loaded : (sampleLoader .x86_64).WellFormed lastPageState.memory ∧
    (sampleLoader .x86_64).Maps ∧ canExec .x86_64 (sampleLoader .x86_64).readable lastPageState.memory .elf32
      (sampleLoader .x86_64).image = some true ∧
    ¬ (sampleLoader .x86_64).LoadsCorrectly lastPageState := by
  have accepted : canExec .x86_64 (sampleLoader .x86_64).readable lastPageState.memory .elf32
      (sampleLoader .x86_64).image = some true := by decide +kernel
  refine ⟨lastPage_wellFormed, sampleLoader_maps .x86_64, accepted, ?_⟩
  rintro ⟨final, loaded, -⟩
  have fits := @fits_of_load .x86_64 Unit (sampleLoader .x86_64) lastPageState 0 _ lastPage_wellFormed
    (sampleLoader_maps .x86_64) accepted loaded ⟨by decide +kernel, by rw [lastPage_header]; rfl⟩
  rw [lastPage_header] at fits
  exact absurd fits (by decide)

end ElfLoaderBase

end FlapjackOS.Elf
