import FlapjackOS.Elf.Safety

/-! Images whose segments are loaded clear of the module. Their program headers can be judged
before anything is loaded. -/

namespace FlapjackOS.Elf

open Machine Paging Runs

variable {arch : Arch} {image : Image arch} {σ : Type} {actions : SubMap → PageActions σ}
  {measure : Measure} {cls : Class} {memory other : Memory} {header i left : Nat} {pages : σ}

theorem agrees_word_eq (agrees : image.window.Agrees memory other)
    (readable : Readable image address field) :
    word arch other address field = word arch memory address field := by
  apply load_congr
  intro x low high
  rcases readable with empty | ⟨start, finish⟩
  · omega
  · exact agrees x ⟨by omega, by omega⟩

/-- A block of memory outside the module. -/
def Away (image : Image arch) (start count : Nat) : Prop :=
  start + count ≤ image.window.start ∨ image.window.finish ≤ start

theorem Away.agrees (away : Away image start count)
    (same : ∀ x, x < start ∨ start + count ≤ x → other x = memory x) : image.window.Agrees memory other := by
  rintro x ⟨low, high⟩
  apply same
  rcases away with below | above
  · exact .inr (by omega)
  · exact .inl (by omega)

/-- The program header describes a segment whose contents are in the module and fit into a range
that can be mapped. -/
structure PlainSegment (image : Image arch) (cls : Class) (memory : Memory) (header : Nat)
    (measure : Measure) : Prop where
  fields : ∀ field ∈ [cls.pVaddr, cls.pMemsz, cls.pOffset, cls.pFilesz, cls.pFlags],
    Readable image header field
  range : (firstRequest arch cls memory header).Proper arch
  source : image.window.Contains (source arch cls memory header image) (fileSize arch cls memory header)
  target : ((firstRequest arch cls memory header).window measure).Contains
    (segmentStart arch cls memory header) (fileSize arch cls memory header)

/-- The segment is outside the module, both its memory and its contents. -/
def ClearSegment (image : Image arch) (cls : Class) (memory : Memory) (header : Nat) : Prop :=
  Away image (segmentStart arch cls memory header) (memorySize arch cls memory header) ∧
    Away image (segmentStart arch cls memory header) (fileSize arch cls memory header)

section
variable (fields : ∀ field ∈ [cls.pVaddr, cls.pMemsz, cls.pOffset, cls.pFilesz, cls.pFlags],
  Readable image header field)
include fields

/-- What the members of a program header say of its segment. -/
theorem agrees_segment_eq (agrees : image.window.Agrees memory other) :
    segmentStart arch cls other header = segmentStart arch cls memory header ∧
      memorySize arch cls other header = memorySize arch cls memory header ∧
      fileSize arch cls other header = fileSize arch cls memory header ∧
      source arch cls other header image = source arch cls memory header image ∧
      firstRequest arch cls other header = firstRequest arch cls memory header ∧
      lastRequest arch cls other header = lastRequest arch cls memory header := by
  simp only [List.forall_mem_cons] at fields
  obtain ⟨vaddr, memsz, offset, filesz, flags, -⟩ := fields
  simp only [segmentStart, memorySize, fileSize, source, firstRequest, lastRequest, request,
    agrees_word_eq agrees vaddr, agrees_word_eq agrees memsz, agrees_word_eq agrees offset,
      agrees_word_eq agrees filesz,
    agrees_word_eq agrees flags, and_self]

variable (clear : ClearSegment image cls memory header)
  (range : (firstRequest arch cls memory header).Proper arch)
include clear range

theorem agrees_cleared (agrees : image.window.Agrees memory other) :
    image.window.Agrees memory (cleared arch cls other header) := by
  obtain ⟨start, size, -⟩ := agrees_segment_eq fields agrees
  have limit := request_limit_eq range
  have small : (firstRequest arch cls memory header).limit < arch.modulus := segmentLimit_lt _ _
  rw [firstRequest, limit] at small
  rw [Elf.cleared, start, size]
  exact agrees.trans (clear.1.agrees fun _ => CString.memset_outside small.le)

theorem agrees_populated (agrees : image.window.Agrees memory other)
    (target : ((firstRequest arch cls memory header).window measure).Contains
      (segmentStart arch cls memory header) (fileSize arch cls memory header)) :
    image.window.Agrees memory (populated image cls other header) := by
  have before := agrees_cleared fields clear range agrees
  obtain ⟨start, -, size, from_, -⟩ := agrees_segment_eq fields before
  have bound := @segmentStart_lt arch cls memory header
  have finish := @Request.Proper.finish_lt arch measure _ range
  have fits : segmentStart arch cls memory header + fileSize arch cls memory header ≤ arch.modulus := by
    rcases target with empty | ⟨-, high⟩
    · omega
    · omega
  rw [Elf.populated, copied, start, size, from_]
  exact before.trans (clear.2.agrees fun _ => CString.memcpy_outside fits)

end

/-- For a segment that is clear of the module it does not matter when its header is read. -/
theorem segmentSound_iff (agrees : image.window.Agrees memory other)
    (clear : ClearSegment image cls memory header) :
    SegmentSound image cls other header measure ↔ PlainSegment image cls memory header measure := by
  constructor
  · rintro ⟨fields, first, source, target, -⟩
    obtain ⟨-, -, -, -, range, -⟩ := agrees_segment_eq fields agrees
    rw [range] at first target
    obtain ⟨start, -, size, place, -⟩ := agrees_segment_eq fields (agrees_cleared fields clear first agrees)
    rw [size, place] at source
    rw [start, size] at target
    exact ⟨fields, first, source, target⟩
  · rintro ⟨fields, range, source, target⟩
    obtain ⟨-, -, -, -, same, -⟩ := agrees_segment_eq fields agrees
    obtain ⟨start, -, size, place, -⟩ := agrees_segment_eq fields (agrees_cleared fields clear range agrees)
    obtain ⟨-, -, -, -, -, last⟩ := agrees_segment_eq fields (agrees_populated fields clear range agrees target)
    refine ⟨fields, ?_, ?_, ?_, ?_⟩
    · rw [same]
      exact range
    · rw [size, place]
      exact source
    · rw [same, start, size]
      exact target
    · rw [last]
      exact ⟨range.aligned, range.ordered, range.terminates⟩

section
variable (image : Image arch) (cls : Class) (memory : Memory)

/-- A program header that can be processed. -/
structure PlainEntry (measure : Measure)
    (i : Nat) : Prop where
  sized : headerWord image memory cls.ePhentsize = cls.phdrSize
  typed : Readable image (entry image cls memory i) pType
  segment : Loadable image cls memory i →
    PlainSegment image cls memory (entry image cls memory i) measure

/-- The ranges that the program headers have mapped. -/
def plainRequests (i : Nat) : List Request :=
  if Loadable image cls memory i then
    [firstRequest arch cls memory (entry image cls memory i),
      lastRequest arch cls memory (entry image cls memory i)]
  else []

/-- All segments are loaded outside the module. -/
def Clear : Prop :=
  ∀ i, i < headerWord image memory cls.ePhnum → Loadable image cls memory i →
    ClearSegment image cls memory (entry image cls memory i)

end

section
variable (large : cls.ehdrSize ≤ image.size)

include large

theorem agrees_header_eq (agrees : image.window.Agrees memory other) :
    headerWord image other cls.ePhnum = headerWord image memory cls.ePhnum ∧
      headerWord image other cls.ePhentsize = headerWord image memory cls.ePhentsize ∧
      ∀ i, entry image cls other i = entry image cls memory i := by
  have known : ∀ field ∈ [cls.eEntry, cls.ePhoff, cls.ePhentsize, cls.ePhnum],
      headerWord image other field = headerWord image memory field := by
    intro field member
    obtain ⟨inside, nonempty⟩ := headerFields_within cls field member
    exact agrees_word_eq agrees (readable_header (by omega) nonempty)
  simp only [List.mem_cons, forall_eq_or_imp] at known
  obtain ⟨-, offset, size, number, -⟩ := known
  refine ⟨number, size, ?_⟩
  intro i
  rw [entry, entry, offset]

variable (clear : Clear image cls memory)
include clear

theorem entrySound_iff (agrees : image.window.Agrees memory other)
    (counted : i < headerWord image memory cls.ePhnum) :
    EntrySound image cls other measure i ↔ PlainEntry image cls memory measure i := by
  obtain ⟨number, size, place⟩ := agrees_header_eq large agrees
  constructor
  · rintro ⟨-, sized, typed, segment⟩
    rw [size] at sized
    rw [place] at typed
    refine ⟨sized, typed, ?_⟩
    intro loadable
    have same : Loadable image cls other i := by
      rw [Loadable, place, agrees_word_eq agrees typed]
      exact loadable
    have sound := segment same
    rw [place] at sound
    exact (segmentSound_iff agrees (clear i counted loadable)).mp sound
  · rintro ⟨sized, typed, segment⟩
    refine ⟨by rwa [number], by rwa [size], by rwa [place], ?_⟩
    intro same
    have loadable : Loadable image cls memory i := by
      rw [Loadable, place, agrees_word_eq agrees typed] at same
      exact same
    rw [place]
    exact (segmentSound_iff agrees (clear i counted loadable)).mpr (segment loadable)

theorem PlainEntry.advance (agrees : image.window.Agrees memory other)
    (counted : i < headerWord image memory cls.ePhnum) (plain : PlainEntry image cls memory measure i) :
    image.window.Agrees memory (advance image cls other i) ∧
      entryRequests image cls other i = plainRequests image cls memory i := by
  obtain ⟨-, -, place⟩ := agrees_header_eq large agrees
  have same : Loadable image cls other i ↔ Loadable image cls memory i := by
    rw [Loadable, Loadable, place, agrees_word_eq agrees plain.typed]
  by_cases loadable : Loadable image cls memory i
  · obtain ⟨fields, range, -, target⟩ := plain.segment loadable
    obtain ⟨-, -, -, -, first, -⟩ := agrees_segment_eq fields agrees
    have after := agrees_populated fields (clear i counted loadable) range agrees target
    obtain ⟨-, -, -, -, -, last⟩ := agrees_segment_eq fields after
    rw [entryRequests, plainRequests, Elf.advance, if_pos (same.mpr loadable), if_pos (same.mpr loadable),
      if_pos loadable, place, first, last]
    exact ⟨after, rfl⟩
  · have skipped : ¬ Loadable image cls other i := fun claimed => loadable (same.mp claimed)
    rw [entryRequests, plainRequests, Elf.advance, if_neg skipped, if_neg skipped, if_neg loadable]
    exact ⟨agrees, rfl⟩

theorem table_iff (agrees : image.window.Agrees memory other)
    (counted : i + left ≤ headerWord image memory cls.ePhnum) :
    ((∀ k, k < left → EntrySound image cls (advanced image cls k i other) measure (i + k)) ↔
        ∀ k, k < left → PlainEntry image cls memory measure (i + k)) ∧
      ((∀ k, k < left → PlainEntry image cls memory measure (i + k)) →
        tableRequests image cls left i other = (List.range' i left).flatMap (plainRequests image cls memory)) := by
  induction left generalizing i other with
  | zero => exact ⟨⟨fun _ k bound => by omega, fun _ k bound => by omega⟩, fun _ => rfl⟩
  | succ left ih =>
    have here := @entrySound_iff arch image measure cls memory other i large clear agrees (by omega)
    have later (plain : PlainEntry image cls memory measure i) :=
      @ih (advance image cls other i) (i + 1) (plain.advance large clear agrees (by omega)).1 (by omega)
    simp only [Nat.add_assoc, Nat.add_comm 1] at later
    simp only [Nat.forall_lt_succ_left, Nat.add_zero]
    refine ⟨?_, fun ⟨first, rest⟩ => ?_⟩
    · rw [advanced, here]
      exact and_congr_right fun first => (later first).1
    · rw [tableRequests, (first.advance large clear agrees (by omega)).2, (later first).2 rest, List.range'_succ,
        List.flatMap_cons]

/-- An image whose segments are clear of the module is sound if its program headers are, as they
stand in the module. -/
theorem sound_iff_of_clear :
    Sound image cls memory actions measure pages ↔
      (∀ k, k < headerWord image memory cls.ePhnum → PlainEntry image cls memory measure k) ∧
      ∃ final, run (serve arch actions) pages ((List.range (headerWord image memory cls.ePhnum)).flatMap
        (plainRequests image cls memory)) = some final := by
  obtain ⟨entries, requests⟩ := @table_iff arch image measure cls memory memory 0
    (headerWord image memory cls.ePhnum) large clear (fun _ _ => rfl) (by omega)
  simp only [Nat.zero_add, ← List.range_eq_range'] at entries requests
  constructor
  · rintro ⟨sound, mapped⟩
    have plain := entries.mp sound
    exact ⟨plain, requests plain ▸ mapped⟩
  · rintro ⟨plain, mapped⟩
    exact ⟨entries.mpr plain, (requests plain).symm ▸ mapped⟩

end

/-- A module with two loadable segments, at `0x400000` and `0x410000`. -/
def pairImage : Image .i386 where
  modStart := 0x200000
  modEnd := 0x200000 + 116
  ordered := by decide
  placed := by decide

def pairMemory : Memory := fun x =>
  UInt8.ofNat ((sampleHeader 2 ++ sampleSegment 4 0x40 ++ sampleSegment 60 0x41).getD
    (x - pairImage.window.start) 0)

/-- The pair of segments is loaded; contents 200 bytes into a module of 84 are not. -/
theorem segments_judged : Sound pairImage .elf32 pairMemory recorder .pages [] ∧
    ¬ Sound sampleImage .elf32 (sampleMemory 200) recorder .pages [] := by
  constructor
  · rw [sound_iff_of_clear (by decide) (by unfold Clear ClearSegment Away; decide +kernel)]
    have number : headerWord pairImage pairMemory Class.elf32.ePhnum = 2 := by decide +kernel
    rw [number]
    refine ⟨fun k bound => ?_, Option.isSome_iff_exists.mp (by decide +kernel)⟩
    rcases (show k = 0 ∨ k = 1 by omega) with rfl | rfl
    all_goals
      exact ⟨by decide +kernel, by decide +kernel, fun _ =>
        ⟨by decide +kernel, ⟨by decide +kernel, by decide +kernel, by decide +kernel⟩, by decide +kernel,
          by decide +kernel⟩⟩
  · rw [sound_iff_of_clear (by decide) (by unfold Clear ClearSegment Away; decide +kernel)]
    rintro ⟨plain, -⟩
    exact absurd ((plain 0 (by decide +kernel)).segment (by decide +kernel)).source (by decide +kernel)

end FlapjackOS.Elf
