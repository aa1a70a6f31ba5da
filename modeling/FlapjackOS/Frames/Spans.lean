import FlapjackOS.Frames.Allocator
import FlapjackOS.Machine.Runs

/-! What `allocate` does with a span of frames. -/

namespace FlapjackOS.Frames

namespace PageFrameAllocator

variable {frames : Nat} {arch : Arch} {allocator after : PageFrameAllocator frames}
  {first length fuel : Nat}

/-- The number of frames that `length` bytes from a frame's start on reach into. -/
def framesCovering (length : Nat) : Nat := (length + pageSize - 1) / pageSize

/-- All frames that the span reaches into are free. -/
def SpanFree (allocator : PageFrameAllocator frames) (first length : Nat) : Prop :=
  Finset.Ico first (first + framesCovering length) ⊆ allocator.freeFrames

instance : Decidable (SpanFree allocator first length) :=
  inferInstanceAs (Decidable (Finset.Ico first _ ⊆ allocator.freeFrames))

/-- What the search takes for a free span: when the end of the span wraps around,
the scan has nothing to look at. -/
def Accepts (arch : Arch) (allocator : PageFrameAllocator frames) (first length : Nat) : Prop :=
  allocator.SpanFree first length ∨ arch.modulus ≤ first * pageSize + length

instance : Decidable (Accepts arch allocator first length) :=
  inferInstanceAs (Decidable (_ ∨ _))

/-- The frame behind frame `first` has an address, or its address is the end of memory. -/
theorem Valid.add_pageSize (valid : Valid arch allocator) (inside : first < frames) :
    arch.add (first * pageSize) pageSize = (first + 1) * pageSize := by
  have fits := valid.fits
  simp only [pageSize] at fits ⊢
  rw [Arch.add_of_lt (by omega)]
  omega

theorem frame_index : first * pageSize / pageSize = first :=
  Nat.mul_div_cancel first (by decide)

theorem Valid.takeFrame (valid : Valid arch allocator) (inside : first < frames) :
    ∃ after, allocator.allocateSpecificPageFrame (first * pageSize) =
        some (after, decide (first ∈ allocator.freeFrames)) ∧
      Valid arch after ∧ after.freeFrames = allocator.freeFrames.erase first := by
  have result := valid.allocateSpecificPageFrame (frame_index.trans_lt inside)
  simpa only [frame_index] using result

theorem mul_pageSize_lt_iff {i : Nat} :
    i * pageSize < first * pageSize + length ↔ i < first + framesCovering length := by
  simp only [framesCovering, pageSize]
  omega

theorem Valid.scanSpan (valid : Valid arch allocator) (limit : Nat) (enough : frames < first + fuel)
    (start : first ≤ frames) :
    ∃ answer, PageFrameAllocator.scanSpan arch allocator limit fuel (first * pageSize) = some answer ∧
      (answer = true ↔ ∀ i, first ≤ i → i * pageSize < limit → i ∈ allocator.freeFrames) := by
  induction fuel generalizing first with
  | zero => omega
  | succ fuel ih =>
    unfold PageFrameAllocator.scanSpan
    by_cases more : first * pageSize < limit
    · by_cases free : first ∈ allocator.freeFrames
      · have inside := lt_of_free free
        obtain ⟨answer, scanned, meaning⟩ := ih (show frames < first + 1 + fuel by omega) inside
        refine ⟨answer, ?_, ?_⟩
        · simp [more, isFree_eq, frame_index, free, valid.add_pageSize inside, scanned]
        · rw [meaning]
          constructor
          · intro rest i low high
            rcases Nat.eq_or_lt_of_le low with same | later
            · exact same ▸ free
            · exact rest i later high
          · intro all i low high
            exact all i (by omega) high
      · refine ⟨false, by simp [more, isFree_eq, frame_index, free], ?_⟩
        simp only [Bool.false_eq_true, false_iff]
        intro all
        exact free (all first (Nat.le_refl _) more)
    · refine ⟨true, by simp [more], ?_⟩
      simp only [true_iff]
      intro i low high
      simp only [pageSize] at more high
      omega

theorem Valid.isSpanFree (valid : Valid arch allocator) (inside : first < frames)
    (positive : 0 < length) (small : length < arch.modulus) :
    PageFrameAllocator.isSpanFree arch allocator (first * pageSize) length =
      some (decide (Accepts arch allocator first length)) := by
  have fits := valid.fits
  simp only [pageSize] at fits
  have aligned : first * pageSize % pageSize = 0 := Nat.mul_mod_left first pageSize
  obtain ⟨answer, scanned, meaning⟩ :=
    valid.scanSpan (arch.add (first * pageSize) length) (show frames < first + arch.modulus by omega)
      inside.le
  have accepted : answer = true ↔ Accepts arch allocator first length := by
    rw [meaning]
    by_cases wraps : arch.modulus ≤ first * pageSize + length
    · have sum : arch.add (first * pageSize) length < first * pageSize := by
        simp only [Arch.add, Machine.wordAdd, pageSize] at wraps ⊢
        rw [Nat.mod_eq_sub_mod wraps, Nat.mod_eq_of_lt (by omega)]
        omega
      refine iff_of_true ?_ (Or.inr wraps)
      intro i low high
      simp only [pageSize] at sum high
      omega
    · rw [Arch.add_of_lt (Nat.lt_of_not_le wraps)]
      simp only [mul_pageSize_lt_iff, Accepts, wraps, or_false, SpanFree, Finset.subset_iff,
        Finset.mem_Ico, and_imp]
  rw [PageFrameAllocator.isSpanFree, if_neg (not_not.mpr aligned), if_neg positive.ne', scanned]
  exact congrArg some (Bool.eq_iff_iff.mpr (by rw [accepted, decide_eq_true_iff]))

section
variable {pages rest : Nat}

theorem markSpan_page {taken : PageFrameAllocator frames}
    (valid : Valid arch allocator) (inside : first < frames)
    (step : allocator.allocateSpecificPageFrame (first * pageSize) = some (taken, answer)) :
    markSpan arch (fuel + 1) allocator (first * pageSize) ((pages + 1) * pageSize + rest) =
      markSpan arch fuel taken ((first + 1) * pageSize) (pages * pageSize + rest) := by
  have more : pageSize ≤ (pages + 1) * pageSize + rest := by
    simp only [pageSize]
    omega
  have less : (pages + 1) * pageSize + rest - pageSize = pages * pageSize + rest := by
    simp only [pageSize]
    omega
  rw [markSpan, if_pos more]
  simp [step, valid.add_pageSize inside, less]

/-- Enough frames: the marking loop takes them all. -/
theorem Valid.markSpan (valid : Valid arch allocator) (inside : first + pages ≤ frames)
    (short : rest < pageSize) (enough : pages ≤ fuel) :
    ∃ after, PageFrameAllocator.markSpan arch fuel allocator (first * pageSize)
        (pages * pageSize + rest) = some after ∧
      Valid arch after ∧
      after.freeFrames = allocator.freeFrames \ Finset.Ico first (first + pages) := by
  induction pages generalizing allocator first fuel with
  | zero => exact ⟨allocator, by unfold markSpan; exact if_neg (by omega), valid, by simp⟩
  | succ pages ih =>
    obtain ⟨fuel, rfl⟩ : ∃ more, fuel = more + 1 := ⟨fuel - 1, by omega⟩
    obtain ⟨taken, step, kept, frees⟩ := valid.takeFrame (show first < frames by omega)
    obtain ⟨after, marked, result, final⟩ :=
      ih kept (show first + 1 + pages ≤ frames by omega) (show pages ≤ fuel by omega)
    refine ⟨after, (markSpan_page valid (by omega) step).trans marked, result, ?_⟩
    ext i
    rw [final, frees]
    have bounds : i ≠ first ∧ ¬ (first + 1 ≤ i ∧ i < first + 1 + pages) ↔
        ¬ (first ≤ i ∧ i < first + (pages + 1)) := by omega
    simp only [Finset.mem_sdiff, Finset.mem_erase, Finset.mem_Ico, ← bounds]
    tauto

/-- Too few frames: the marking loop runs into the end of the bitmap. -/
theorem Valid.markSpan_eq_none (valid : Valid arch allocator) (start : first ≤ frames)
    (outside : frames < first + pages) :
    PageFrameAllocator.markSpan arch fuel allocator (first * pageSize) (pages * pageSize + rest) =
      none := by
  have more : pageSize ≤ pages * pageSize + rest := by
    simp only [pageSize]
    omega
  induction fuel generalizing allocator first pages with
  | zero => simp [PageFrameAllocator.markSpan, more]
  | succ fuel ih =>
    obtain ⟨pages, rfl⟩ : ∃ fewer, pages = fewer + 1 := ⟨pages - 1, by omega⟩
    rcases Nat.eq_or_lt_of_le start with last | inside
    · have missing : allocator.allocateSpecificPageFrame (first * pageSize) = none :=
        allocateSpecificPageFrame_eq_none (by rw [frame_index, last])
      rw [PageFrameAllocator.markSpan, if_pos more]
      simp [missing]
    · obtain ⟨taken, step, kept, _⟩ := valid.takeFrame inside
      rw [markSpan_page valid inside step]
      refine ih kept inside (by omega) ?_
      simp only [pageSize]
      omega

end

/-- The outer loop stops at the first start it accepts. -/
theorem Valid.searchSpan (valid : Valid arch allocator) (positive : 0 < length)
    (small : length < arch.modulus) (start : first ≤ frames) (enough : frames < first + fuel) :
    (∃ found, first ≤ found ∧ found < frames ∧ Accepts arch allocator found length ∧
      (∀ i, first ≤ i → i < found → ¬ Accepts arch allocator i length) ∧
      PageFrameAllocator.searchSpan arch allocator length fuel (first * pageSize) =
        (PageFrameAllocator.markSpan arch arch.modulus allocator (found * pageSize) length).map
          (fun after => (after, found * pageSize))) ∨
    ((∀ i, first ≤ i → i < frames → ¬ Accepts arch allocator i length) ∧
      PageFrameAllocator.searchSpan arch allocator length fuel (first * pageSize) =
        some (allocator, 0)) := by
  have limit : pageSize * frames % arch.modulus = pageSize * frames := Nat.mod_eq_of_lt valid.fits
  induction fuel generalizing first with
  | zero => omega
  | succ fuel ih =>
    unfold PageFrameAllocator.searchSpan
    rw [limit]
    rcases Nat.eq_or_lt_of_le start with last | inside
    · have done : ¬ first * pageSize < pageSize * frames := by
        simp only [pageSize]
        omega
      rw [if_neg done]
      exact .inr ⟨fun i low high => by omega, rfl⟩
    · have more : first * pageSize < pageSize * frames := by
        simp only [pageSize]
        omega
      rw [if_pos more]
      simp only [valid.isSpanFree inside positive small, valid.add_pageSize inside,
        Option.bind_eq_bind, Option.bind_some]
      by_cases accepts : Accepts arch allocator first length
      · refine .inl ⟨first, Nat.le_refl _, inside, accepts, fun i low high => by omega, ?_⟩
        rw [Option.map_eq_bind]
        simp only [accepts, decide_true, if_true]
        rfl
      · have extend {limit : Nat} (later : ∀ i, first + 1 ≤ i → i < limit → ¬ Accepts arch allocator i length)
            (i : Nat) (above : first ≤ i) (below : i < limit) : ¬ Accepts arch allocator i length := by
          by_cases same : i = first
          · exact same ▸ accepts
          · exact later i (by omega) below
        simp only [accepts, decide_false, Bool.false_eq_true, if_false]
        rcases ih inside (show frames < first + 1 + fuel by omega) with
          ⟨found, low, high, accepted, before, result⟩ | ⟨never, result⟩
        · exact .inl ⟨found, by omega, high, accepted, extend before, result⟩
        · exact .inr ⟨extend never, result⟩

/-- The three ways in which a call of `allocate` can go. -/
inductive Outcome (arch : Arch) (allocator : PageFrameAllocator frames) (length : Nat) : Prop where
  | granted (first : Nat) (after : PageFrameAllocator frames) (reserved : 1 ≤ first)
      (free : allocator.SpanFree first length)
      (lowest : ∀ i, 1 ≤ i → i < first → ¬ allocator.SpanFree i length)
      (result : allocate arch allocator length = some (after, first * pageSize))
      (valid : Valid arch after)
      (taken : after.freeFrames =
        allocator.freeFrames \ Finset.Ico first (first + length / pageSize))
  | refused (none : ∀ i, 1 ≤ i → ¬ allocator.SpanFree i length)
      (short : ∀ i, 1 ≤ i → i < frames → i * pageSize + length < arch.modulus)
      (result : allocate arch allocator length = some (allocator, 0))
  | failed (none : ∀ i, 1 ≤ i → ¬ allocator.SpanFree i length)
      (wraps : ∃ i, 1 ≤ i ∧ i < frames ∧ arch.modulus ≤ i * pageSize + length)
      (result : allocate arch allocator length = Option.none)

theorem SpanFree.inside (free : allocator.SpanFree first length) (positive : 0 < length) :
    first + framesCovering length ≤ frames := by
  have covers : 0 < framesCovering length := by
    simp only [framesCovering, pageSize]
    omega
  have last : first + framesCovering length - 1 ∈ allocator.freeFrames :=
    free (Finset.mem_Ico.mpr (by omega))
  have bound := lt_of_free last
  omega

theorem modulus_pages (arch : Arch) : arch.modulus % pageSize = 0 := by
  cases arch <;> decide

theorem pages_add_rest : length = length / pageSize * pageSize + length % pageSize :=
  (Nat.div_add_mod' length pageSize).symm

theorem Valid.allocate (valid : Valid arch allocator) (positive : 0 < length)
    (small : length < arch.modulus) : Outcome arch allocator length := by
  have fits := valid.fits
  have short : length % pageSize < pageSize := Nat.mod_lt _ (by decide)
  have enough : frames < 1 + arch.modulus := by
    simp only [pageSize] at fits
    omega
  have search := valid.searchSpan positive small valid.nonempty enough
  rw [Nat.one_mul] at search
  have beyond : ∀ i, frames ≤ i → ¬ allocator.SpanFree i length := by
    intro i far free
    have inside := free.inside positive
    simp only [framesCovering, pageSize] at inside
    omega
  rcases search with ⟨found, reserved, inside, accepted, before, result⟩ | ⟨never, result⟩
  · have lowest : ∀ i, 1 ≤ i → i < found → ¬ allocator.SpanFree i length :=
      fun i low high free => before i low high (.inl free)
    rcases accepted with free | wraps
    · have room := free.inside positive
      have pages : found + length / pageSize ≤ frames := by
        simp only [framesCovering, pageSize] at room ⊢
        omega
      obtain ⟨after, marked, kept, taken⟩ := valid.markSpan pages short
        (show length / pageSize ≤ arch.modulus from (Nat.div_le_self _ _).trans small.le)
      rw [← pages_add_rest] at marked
      refine .granted found after reserved free lowest ?_ kept taken
      rw [PageFrameAllocator.allocate, result, marked, Option.map_some]
    · have whole := modulus_pages arch
      have crossed : frames < found + length / pageSize := by
        simp only [pageSize] at fits wraps whole ⊢
        omega
      have lost : PageFrameAllocator.markSpan arch arch.modulus allocator (found * pageSize)
          (length / pageSize * pageSize + length % pageSize) = none :=
        valid.markSpan_eq_none inside.le crossed
      rw [← pages_add_rest] at lost
      refine .failed (fun i low free => ?_) ⟨found, reserved, inside, wraps⟩ ?_
      · have last := free.inside positive
        by_cases early : i < found
        · exact lowest i low early free
        · simp only [framesCovering, pageSize] at last fits wraps
          omega
      · rw [PageFrameAllocator.allocate, result, lost, Option.map_none]
  · refine .refused (fun i low free => ?_) (fun i low high => ?_) result
    · by_cases far : frames ≤ i
      · exact beyond i far free
      · exact never i low (by omega) (.inl free)
    · by_contra wraps
      exact never i low high (.inr (by omega))

/-- A request for one page gets the lowest free frame except frame zero. -/
theorem Valid.allocatePage (valid : Valid arch allocator) :
    (∃ i after, 1 ≤ i ∧ i ∈ allocator.freeFrames ∧
      (∀ j, 1 ≤ j → j < i → j ∉ allocator.freeFrames) ∧
      PageFrameAllocator.allocate arch allocator pageSize = some (after, i * pageSize) ∧
      Valid arch after ∧ after.freeFrames = allocator.freeFrames.erase i) ∨
    ((∀ i, 1 ≤ i → i ∉ allocator.freeFrames) ∧
      PageFrameAllocator.allocate arch allocator pageSize = some (allocator, 0)) := by
  have small : pageSize < arch.modulus := by
    have large := arch.modulus_large
    simp only [pageSize]
    omega
  have single : ∀ i, allocator.SpanFree i pageSize ↔ i ∈ allocator.freeFrames := by
    intro i
    have one : framesCovering pageSize = 1 := rfl
    simp [SpanFree, one]
  cases valid.allocate (by decide) small with
  | granted i after reserved free lowest result kept taken =>
    refine .inl ⟨i, after, reserved, (single i).mp free, fun j low high member => ?_, result, kept, ?_⟩
    · exact lowest j low high ((single j).mpr member)
    · have one : pageSize / pageSize = 1 := rfl
      rw [taken, one, Nat.Ico_succ_singleton, Finset.sdiff_singleton_eq_erase]
  | refused none short result =>
    exact .inr ⟨fun i low member => none i low ((single i).mpr member), result⟩
  | failed none wraps result =>
    obtain ⟨i, _, high, wraps⟩ := wraps
    have fits := valid.fits
    simp only [pageSize] at fits wraps
    omega

end PageFrameAllocator

end FlapjackOS.Frames
