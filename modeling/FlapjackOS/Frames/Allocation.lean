import FlapjackOS.Frames.Spans
import Mathlib.Data.Nat.Count

namespace FlapjackOS.Frames

open Runs

namespace PageFrameAllocator

variable {frames : Nat} {arch : Arch} {allocator after : PageFrameAllocator frames}
  {pageFrame start first length fuel : Nat}

/-- The calls that change the state of an allocator. -/
inductive Call where
  | allocate (length : Nat)
  | allocateSpecificPageFrame (pageFrame : Nat)
  | deallocate (pageFrame : Nat)
  | markAllAsUsed
  deriving DecidableEq, Repr

def step (arch : Arch) (allocator : PageFrameAllocator frames) :
    Call → Option (PageFrameAllocator frames)
  | .allocate length => (allocate arch allocator length).map Prod.fst
  | .allocateSpecificPageFrame pageFrame =>
    (allocator.allocateSpecificPageFrame pageFrame).map Prod.fst
  | .deallocate pageFrame => deallocate arch allocator pageFrame
  | .markAllAsUsed => some allocator.markAllAsUsed

/-- Frames are taken, never given back. -/
def Shrinks (arch : Arch) (allocator after : PageFrameAllocator frames) : Prop :=
  Valid arch after ∧ after.freeFrames ⊆ allocator.freeFrames

theorem Valid.of_allocateSpecificPageFrame (valid : Valid arch allocator)
    (success : allocator.allocateSpecificPageFrame pageFrame = some (after, answer)) :
    Shrinks arch allocator after := by
  by_cases inside : pageFrame / pageSize < frames
  · obtain ⟨taken, result, kept, frees⟩ := valid.allocateSpecificPageFrame inside
    obtain ⟨rfl, _⟩ := Prod.mk.inj (Option.some.inj (success.symm.trans result))
    exact ⟨kept, frees ▸ Finset.erase_subset _ _⟩
  · rw [allocateSpecificPageFrame_eq_none (by omega)] at success
    cases success

theorem Valid.of_markSpan (valid : Valid arch allocator)
    (success : PageFrameAllocator.markSpan arch fuel allocator pageFrame length = some after) :
    Shrinks arch allocator after := by
  induction fuel generalizing allocator pageFrame length with
  | zero =>
    unfold PageFrameAllocator.markSpan at success
    split at success
    · cases success
    · cases success
      exact ⟨valid, Finset.Subset.refl _⟩
  | succ fuel ih =>
    unfold PageFrameAllocator.markSpan at success
    split at success
    · obtain ⟨⟨taken, answer⟩, marked, rest⟩ := Option.bind_eq_some_iff.mp success
      obtain ⟨kept, fewer⟩ := valid.of_allocateSpecificPageFrame marked
      obtain ⟨result, final⟩ := ih kept rest
      exact ⟨result, final.trans fewer⟩
    · cases success
      exact ⟨valid, Finset.Subset.refl _⟩

theorem Valid.of_searchSpan (valid : Valid arch allocator)
    (success : PageFrameAllocator.searchSpan arch allocator length fuel pageFrame =
      some (after, start)) :
    Shrinks arch allocator after := by
  induction fuel generalizing pageFrame with
  | zero =>
    unfold PageFrameAllocator.searchSpan at success
    split at success
    · cases success
    · cases success
      exact ⟨valid, Finset.Subset.refl _⟩
  | succ fuel ih =>
    unfold PageFrameAllocator.searchSpan at success
    split at success
    · obtain ⟨answer, _, rest⟩ := Option.bind_eq_some_iff.mp success
      cases answer with
      | false => exact ih rest
      | true =>
        obtain ⟨marked, marking, result⟩ := Option.bind_eq_some_iff.mp rest
        cases result
        exact valid.of_markSpan marking
    · cases success
      exact ⟨valid, Finset.Subset.refl _⟩

theorem Valid.step (valid : Valid arch allocator) {call : Call}
    (success : PageFrameAllocator.step arch allocator call = some after) :
    Valid arch after ∧
      ((∀ pageFrame, call ≠ .deallocate pageFrame) → after.freeFrames ⊆ allocator.freeFrames) := by
  cases call with
  | allocate length =>
    obtain ⟨⟨taken, start⟩, result, rfl⟩ := Option.map_eq_some_iff.mp success
    obtain ⟨kept, fewer⟩ := valid.of_searchSpan result
    exact ⟨kept, fun _ => fewer⟩
  | allocateSpecificPageFrame pageFrame =>
    obtain ⟨⟨taken, answer⟩, result, rfl⟩ := Option.map_eq_some_iff.mp success
    obtain ⟨kept, fewer⟩ := valid.of_allocateSpecificPageFrame result
    exact ⟨kept, fun _ => fewer⟩
  | deallocate pageFrame =>
    refine ⟨?_, fun other => absurd rfl (other pageFrame)⟩
    by_cases inside : pageFrame / pageSize < frames
    · obtain ⟨returned, result, kept, _⟩ := valid.deallocate inside
      cases success.symm.trans result
      exact kept
    · cases success.symm.trans (deallocate_eq_none (Nat.le_of_not_lt inside))
  | markAllAsUsed =>
    cases success
    refine ⟨valid.markAllAsUsed, fun _ => ?_⟩
    simp [PageFrameAllocator.markAllAsUsed, freeFrames]

/-- Lengths are whole pages of the managed memory, and frames are managed ones. -/
def InRange (frames : Nat) : Call → Prop
  | .allocate length => 0 < length ∧ length % pageSize = 0 ∧ length ≤ pageSize * frames
  | .allocateSpecificPageFrame pageFrame | .deallocate pageFrame => pageFrame / pageSize < frames
  | .markAllAsUsed => True

instance InRange.decidable (frames : Nat) : DecidablePred (InRange frames)
  | .allocate _ => inferInstanceAs (Decidable (_ ∧ _))
  | .allocateSpecificPageFrame _ | .deallocate _ => inferInstanceAs (Decidable (_ < _))
  | .markAllAsUsed => .isTrue trivial

/-- Where no span can reach the end of the address space, no call in range fails. -/
theorem Valid.progress (valid : Valid arch allocator) (half : 2 * (pageSize * frames) ≤ arch.modulus)
    {call : Call} (range : InRange frames call) :
    ∃ next, PageFrameAllocator.step arch allocator call = some next ∧ Valid arch next := by
  cases call with
  | allocate length =>
    obtain ⟨positive, _, short⟩ := range
    cases valid.allocate positive (by omega) with
    | granted _ after _ _ _ result kept _ =>
      exact ⟨after, by simp [PageFrameAllocator.step, result], kept⟩
    | refused _ _ result => exact ⟨allocator, by simp [PageFrameAllocator.step, result], valid⟩
    | failed _ wraps _ =>
      obtain ⟨i, _, inside, wraps⟩ := wraps
      simp only [pageSize] at half short wraps
      omega
  | allocateSpecificPageFrame pageFrame =>
    obtain ⟨after, result, kept, _⟩ := valid.allocateSpecificPageFrame range
    exact ⟨after, by simp [PageFrameAllocator.step, result], kept⟩
  | deallocate pageFrame =>
    obtain ⟨after, result, kept, _⟩ := valid.deallocate range
    exact ⟨after, result, kept⟩
  | markAllAsUsed => exact ⟨_, rfl, valid.markAllAsUsed⟩

/-- No sequence of calls fails an assertion or makes the counter differ from the number of
frames that are free. -/
theorem free_counter_exact (half : 2 * (pageSize * frames) ≤ arch.modulus)
    (range : ∀ call ∈ calls, InRange frames call) :
    ∃ final, run (PageFrameAllocator.step arch) (construct frames) calls = some final ∧
      final.getNumberOfFreePageFrames =
        Nat.count (fun i => final.isFree (i * pageSize) = some true) frames := by
  by_cases empty : frames = 0
  · subst empty
    -- an allocator without frames takes no call other than `mark_all_as_used`
    have progress : ∀ (allocator : PageFrameAllocator 0) call, allocator.count = 0 → InRange 0 call →
        ∃ next, PageFrameAllocator.step arch allocator call = some next ∧ next.count = 0 := by
      intro allocator call unused range
      cases call with
      | allocate length =>
        obtain ⟨positive, _, short⟩ := range
        omega
      | allocateSpecificPageFrame | deallocate => exact (Nat.not_lt_zero _ range).elim
      | markAllAsUsed => exact ⟨_, rfl, rfl⟩
    exact run_invariant progress (legal_of_forall range) rfl
  · have large := arch.modulus_pos
    have fits : pageSize * frames < arch.modulus := by omega
    obtain ⟨final, ran, valid⟩ := run_invariant (fun _ _ valid range => valid.progress half range)
      (legal_of_forall range) (Valid.construct (Nat.pos_of_ne_zero empty) fits)
    refine ⟨final, ran, valid.counted.trans ?_⟩
    rw [Nat.count_eq_card_filter_range]
    congr 1
    ext i
    rw [Finset.mem_filter, Finset.mem_range, isFree_eq, frame_index, Option.some.injEq, decide_eq_true_iff]
    exact (and_iff_right_of_imp lt_of_free).symm

theorem free_counter_sample :
    ∃ final, run (PageFrameAllocator.step .i386) (construct 10)
        [.deallocate 20480, .deallocate 24576, .deallocate 20481, .allocate 8192, .markAllAsUsed,
          .deallocate 4096, .allocateSpecificPageFrame 4096, .allocateSpecificPageFrame 8192,
          .deallocate 36864] = some final ∧
      final.getNumberOfFreePageFrames =
        Nat.count (fun i => final.isFree (i * pageSize) = some true) 10 :=
  free_counter_exact (by decide) (by decide)

/-- Frame `i` and the bytes from `start` to `start + length` have a byte in common. -/
def Overlaps (i start length : Nat) : Prop :=
  i * pageSize < start + length ∧ start < (i + 1) * pageSize

instance : Decidable (Overlaps i start length) := inferInstanceAs (Decidable (_ ∧ _))

/-- A span that `allocate` may hand out. -/
structure FreeSpan (allocator : PageFrameAllocator frames) (start length : Nat) : Prop where
  aligned : start % pageSize = 0
  reserved : pageSize ≤ start
  free : ∀ i, Overlaps i start length → i ∈ allocator.freeFrames

section
variable (arch : Arch) (allocator : PageFrameAllocator frames) (length : Nat)

/-- The call hands out the lowest free span and takes its frames, or it returns
zero and changes nothing because there is no free span. -/
def AllocatesLowestSpan : Prop :=
  ∃ after result, allocate arch allocator length = some (after, result) ∧
    (result = 0 → after = allocator ∧ ∀ start, ¬ FreeSpan allocator start length) ∧
    (result ≠ 0 → FreeSpan allocator result length ∧
      (∀ start, FreeSpan allocator start length → result ≤ start) ∧
      ∀ i, i ∈ after.freeFrames ↔ i ∈ allocator.freeFrames ∧ ¬ Overlaps i result length)

/-- No later allocation overlaps this one as long as nothing is deallocated. -/
def NeverOverlapped : Prop :=
  ∀ after result, allocate arch allocator length = some (after, result) → result ≠ 0 →
    ∀ calls later, (∀ call ∈ calls, ∀ pageFrame, call ≠ .deallocate pageFrame) →
      run (step arch) after calls = some later →
    ∀ otherLength final other, 0 < otherLength → otherLength < arch.modulus →
      allocate arch later otherLength = some (final, other) → other ≠ 0 →
    result + length ≤ other ∨ other + otherLength ≤ result

/-- Either a free span exists and `length` is a whole number of pages, or there is
none and no span that starts in a managed frame reaches the end of the address space. -/
def Serviceable : Prop :=
  ((∃ start, FreeSpan allocator start length) → length % pageSize = 0) ∧
    ((¬ ∃ start, FreeSpan allocator start length) →
      (frames - 1) * pageSize + length < arch.modulus)

end

theorem overlaps_iff :
    Overlaps i (first * pageSize) length ↔ i ∈ Finset.Ico first (first + framesCovering length) := by
  rw [Overlaps, mul_pageSize_lt_iff, Finset.mem_Ico, and_comm]
  simp only [pageSize]
  omega

theorem freeSpan_iff :
    FreeSpan allocator start length ↔
      ∃ first, 1 ≤ first ∧ start = first * pageSize ∧ allocator.SpanFree first length := by
  constructor
  · rintro ⟨aligned, reserved, free⟩
    have multiple : start / pageSize * pageSize = start := Nat.div_mul_cancel (Nat.dvd_of_mod_eq_zero aligned)
    refine ⟨start / pageSize, Nat.div_pos reserved (by decide), multiple.symm, fun i member => ?_⟩
    refine free i ?_
    rw [← multiple]
    exact overlaps_iff.mpr member
  · rintro ⟨first, reserved, rfl, free⟩
    refine ⟨Nat.mul_mod_left _ _, Nat.le_mul_of_pos_left _ reserved, fun i member => ?_⟩
    exact free (overlaps_iff.mp member)

theorem no_freeSpan (none : ∀ i, 1 ≤ i → ¬ allocator.SpanFree i length) :
    ¬ ∃ start, FreeSpan allocator start length := by
  rintro ⟨start, span⟩
  obtain ⟨first, reserved, _, free⟩ := freeSpan_iff.mp span
  exact none first reserved free

section
variable (valid : Valid arch allocator) (positive : 0 < length)
include valid positive

theorem allocatesLowestSpan_iff (small : length < arch.modulus) :
    AllocatesLowestSpan arch allocator length ↔ Serviceable arch allocator length := by
  cases valid.allocate positive small with
  | granted first after reserved free lowest result kept taken =>
    have span : FreeSpan allocator (first * pageSize) length :=
      freeSpan_iff.mpr ⟨first, reserved, rfl, free⟩
    have nonzero : first * pageSize ≠ 0 := by
      simp only [pageSize]
      omega
    constructor
    · rintro ⟨after', result', called, _, success⟩
      obtain ⟨rfl, rfl⟩ := Prod.mk.inj (Option.some.inj (result.symm.trans called))
      obtain ⟨_, _, status⟩ := success nonzero
      refine ⟨fun _ => ?_, fun none => absurd ⟨_, span⟩ none⟩
      -- otherwise the last frame is covered by the span but not marked
      by_contra partialPage
      have covers : first + length / pageSize ∈
          Finset.Ico first (first + framesCovering length) := by
        rw [Finset.mem_Ico]
        simp only [framesCovering, pageSize] at partialPage ⊢
        omega
      have unmarked : first + length / pageSize ∈ after.freeFrames := by
        rw [taken, Finset.mem_sdiff, Finset.mem_Ico]
        exact ⟨free covers, by omega⟩
      exact ((status _).mp unmarked).2 (overlaps_iff.mpr covers)
    · rintro ⟨whole, _⟩
      have pages : length / pageSize = framesCovering length := by
        have multiple := whole ⟨_, span⟩
        simp only [framesCovering, pageSize] at multiple ⊢
        omega
      refine ⟨after, _, result, fun zero => absurd zero nonzero, fun _ => ⟨span, ?_, ?_⟩⟩
      · intro start other
        obtain ⟨i, low, rfl, otherFree⟩ := freeSpan_iff.mp other
        by_contra below
        refine lowest i low ?_ otherFree
        simp only [pageSize] at below
        omega
      · intro i
        rw [taken, pages, Finset.mem_sdiff, overlaps_iff]
  | refused none short result =>
    have nowhere := no_freeSpan none
    refine iff_of_true ⟨allocator, 0, result, fun _ => ⟨rfl, fun start span => nowhere ⟨start, span⟩⟩,
      fun nonzero => absurd rfl nonzero⟩ ⟨fun some => absurd some nowhere, fun _ => ?_⟩
    by_cases single : frames = 1
    · simpa [single] using small
    · have nonempty := valid.nonempty
      exact short (frames - 1) (by omega) (by omega)
  | failed none wraps result =>
    refine iff_of_false ?_ ?_
    · rintro ⟨after, start, called, _⟩
      cases result.symm.trans called
    · rintro ⟨_, short⟩
      obtain ⟨i, low, high, wraps⟩ := wraps
      have below := short (no_freeSpan none)
      have last : i * pageSize ≤ (frames - 1) * pageSize := Nat.mul_le_mul_right _ (by omega)
      omega

/-- A span that was handed out had been free. -/
theorem Valid.allocate_free (small : length < arch.modulus)
    (called : PageFrameAllocator.allocate arch allocator length = some (after, start))
    (nonzero : start ≠ 0) : FreeSpan allocator start length := by
  cases valid.allocate positive small with
  | granted first taken reserved free lowest result kept frees =>
    obtain ⟨_, rfl⟩ := Prod.mk.inj (Option.some.inj (result.symm.trans called))
    exact freeSpan_iff.mpr ⟨first, reserved, rfl, free⟩
  | refused none short result =>
    obtain ⟨_, rfl⟩ := Prod.mk.inj (Option.some.inj (result.symm.trans called))
    exact absurd rfl nonzero
  | failed none wraps result => cases result.symm.trans called

theorem Valid.neverOverlapped (correct : AllocatesLowestSpan arch allocator length) :
    NeverOverlapped arch allocator length := by
  intro after result called nonzero calls later kept ran otherLength final other otherPositive
    otherSmall second otherNonzero
  obtain ⟨after', result', same, _, success⟩ := correct
  obtain ⟨rfl, rfl⟩ := Prod.mk.inj (Option.some.inj (called.symm.trans same))
  obtain ⟨span, _, status⟩ := success nonzero
  obtain ⟨validAfter, _⟩ := valid.of_searchSpan called
  have keeps : ∀ state call next, call ∈ calls → Shrinks arch after state →
      PageFrameAllocator.step arch state call = some next → Shrinks arch after next := by
    intro state call next member held success
    obtain ⟨result, fewer⟩ := held.1.step success
    exact ⟨result, (fewer (kept call member)).trans held.2⟩
  obtain ⟨validLater, fewer⟩ := run_preserves keeps ⟨validAfter, Finset.Subset.refl _⟩ ran
  have otherSpan := validLater.allocate_free otherPositive otherSmall second otherNonzero
  by_contra overlap
  -- the frame in which the later of the two spans starts belongs to both
  have shared : Overlaps (max result other / pageSize) result length ∧
      Overlaps (max result other / pageSize) other otherLength := by
    have alignedFirst := span.aligned
    have alignedSecond := otherSpan.aligned
    simp only [Overlaps, pageSize] at alignedFirst alignedSecond ⊢
    omega
  exact ((status _).mp (fewer (otherSpan.free _ shared.2))).2 shared.1

end

/-- `allocate` meets its contract exactly when the request is serviceable. -/
theorem allocate_contract_iff (valid : Valid arch allocator) (positive : 0 < length)
    (small : length < arch.modulus) :
    AllocatesLowestSpan arch allocator length ∧ NeverOverlapped arch allocator length ↔
      Serviceable arch allocator length := by
  rw [← allocatesLowestSpan_iff valid positive small]
  exact and_iff_left_of_imp (valid.neverOverlapped positive)

/-- Ten frames, of which all but frame zero are free. -/
def sampleAllocator : PageFrameAllocator 10 where
  count := 9
  bitmap := { storage := fun index => if index = 0 then 0x01#8 else 0x00#8 }

theorem sampleAllocator_valid : Valid .i386 sampleAllocator where
  nonempty := by decide
  fits := by decide
  counted := by decide

theorem allocate_contract_sample :
    AllocatesLowestSpan .i386 sampleAllocator 8192 ∧ NeverOverlapped .i386 sampleAllocator 8192 :=
  (allocate_contract_iff sampleAllocator_valid (by decide) (by decide)).mpr
    ⟨fun _ => rfl, fun none => absurd ⟨4096, freeSpan_iff.mpr ⟨1, by decide, rfl, by decide⟩⟩ none⟩

/-- Of 5000 bytes at 4096 the second frame stays free, and the next call hands it
out again. A length near the end of the address space fails an assertion. -/
theorem allocate_marks_whole_pages_only :
    (allocate .i386 sampleAllocator 5000).map (fun (after, start) =>
        (start, decide (2 ∈ after.freeFrames), (allocate .i386 after 4096).map Prod.snd)) =
      some (4096, true, some 8192) ∧
    ¬ AllocatesLowestSpan .i386 sampleAllocator 5000 ∧
    ¬ NeverOverlapped .i386 sampleAllocator 5000 ∧
    allocate .i386 (construct 10) 4294963200 = none := by
  have outcome : (allocate .i386 sampleAllocator 5000).map (fun (after, start) =>
        (start, decide (2 ∈ after.freeFrames), (allocate .i386 after 4096).map Prod.snd)) =
      some (4096, true, some 8192) := by decide +kernel
  obtain ⟨⟨after, start⟩, called, result⟩ := Option.map_eq_some_iff.mp outcome
  simp only [Prod.mk.injEq, decide_eq_true_eq] at result
  obtain ⟨rfl, unmarked, again⟩ := result
  refine ⟨outcome, ?_, ?_, by decide +kernel⟩
  · rintro ⟨after', result', same, _, success⟩
    obtain ⟨rfl, rfl⟩ := Prod.mk.inj (Option.some.inj (called.symm.trans same))
    exact (((success (by decide)).2.2 2).mp unmarked).2 (by decide)
  · intro never
    obtain ⟨⟨final, other⟩, second, rfl⟩ := Option.map_eq_some_iff.mp again
    have apart := never after 4096 called (by decide) [] after (by simp) rfl 4096 final 8192
      (by decide) (by decide) second (by decide)
    simp at apart

end PageFrameAllocator

end FlapjackOS.Frames
