import FlapjackOS.Common.BitArray
import FlapjackOS.Machine.Arch

/-! `GenericConcretePageFrameAllocator`. `none` stands for a failed assertion or
a loop that does not end. The proofs see an allocator as its set of free frames. -/

namespace FlapjackOS.Frames

def pageSize : Nat := 4096

/-- `frames` is the number of page frames that the allocator manages. -/
structure PageFrameAllocator (frames : Nat) where
  count : Nat
  bitmap : BitArray frames

namespace PageFrameAllocator

variable {frames : Nat}

def markAllAsUsed (allocator : PageFrameAllocator frames) : PageFrameAllocator frames where
  count := 0
  bitmap := allocator.bitmap.setAll

/-- Initially all page frames are in use. -/
def construct (frames : Nat) : PageFrameAllocator frames :=
  markAllAsUsed { count := 0, bitmap := { storage := fun _ => 0 } }

def getNumberOfFreePageFrames (allocator : PageFrameAllocator frames) : Nat := allocator.count

def getCapacity (_ : PageFrameAllocator frames) : Nat := frames

def isFree (allocator : PageFrameAllocator frames) (pageFrame : Nat) : Option Bool :=
  let bitIndex := pageFrame / pageSize
  if bitIndex < allocator.getCapacity then (allocator.bitmap.test bitIndex).map (! ·)
  else some false

def allocateSpecificPageFrame (allocator : PageFrameAllocator frames) (pageFrame : Nat) :
    Option (PageFrameAllocator frames × Bool) := do
  let bitIndex := pageFrame / pageSize
  if ← allocator.bitmap.test bitIndex then return (allocator, false)
  else if allocator.count = 0 then none
  else
    let bitmap ← allocator.bitmap.set bitIndex
    return ({ count := allocator.count - 1, bitmap }, true)

section
variable (arch : Arch) (allocator : PageFrameAllocator frames)

def deallocate (pageFrame : Nat) :
    Option (PageFrameAllocator frames) := do
  let bitIndex := pageFrame / pageSize
  if ← allocator.bitmap.test bitIndex then
    let bitmap ← allocator.bitmap.clear bitIndex
    return { count := arch.add allocator.count 1, bitmap }
  else return allocator

/-- The loop of `is_span_free`. -/
def scanSpan (arch : Arch) (allocator : PageFrameAllocator frames) (limit : Nat) :
    Nat → Nat → Option Bool
  | fuel, pageFrame =>
    if pageFrame < limit then
      match fuel with
      | 0 => none
      | fuel + 1 => do
        if ← allocator.isFree pageFrame then
          scanSpan arch allocator limit fuel (arch.add pageFrame pageSize)
        else return false
    else some true

def isSpanFree (beginPageFrame length : Nat) :
    Option Bool :=
  if beginPageFrame % pageSize ≠ 0 then none
  else if length = 0 then allocator.isFree beginPageFrame
  else scanSpan arch allocator (arch.add beginPageFrame length) arch.modulus beginPageFrame

end

/-- The inner loop of `allocate`, which takes one frame per whole page of `length`. -/
def markSpan (arch : Arch) :
    Nat → PageFrameAllocator frames → Nat → Nat → Option (PageFrameAllocator frames)
  | fuel, allocator, pageFrame, length =>
    if pageSize ≤ length then
      match fuel with
      | 0 => none
      | fuel + 1 => do
        let (allocator, _) ← allocator.allocateSpecificPageFrame pageFrame
        markSpan arch fuel allocator (arch.add pageFrame pageSize) (length - pageSize)
    else some allocator

/-- The outer loop of `allocate`. -/
def searchSpan (arch : Arch) (allocator : PageFrameAllocator frames) (length : Nat) :
    Nat → Nat → Option (PageFrameAllocator frames × Nat)
  | fuel, pageFrame =>
    if pageFrame < pageSize * frames % arch.modulus then
      match fuel with
      | 0 => none
      | fuel + 1 => do
        if ← isSpanFree arch allocator pageFrame length then
          let after ← markSpan arch arch.modulus allocator pageFrame length
          return (after, pageFrame)
        else searchSpan arch allocator length fuel (arch.add pageFrame pageSize)
    else some (allocator, 0)

def allocate (arch : Arch) (allocator : PageFrameAllocator frames) (length : Nat) :
    Option (PageFrameAllocator frames × Nat) :=
  searchSpan arch allocator length arch.modulus pageSize

/-- The abstract state: the indexes of the frames that are free. -/
def freeFrames (allocator : PageFrameAllocator frames) : Finset Nat := allocator.bitmap.clearBits

/-- The states an allocator can be in: it manages some memory, all of it has an
address, and `count_` is the number of free frames. -/
structure Valid (arch : Arch) (allocator : PageFrameAllocator frames) : Prop where
  nonempty : 0 < frames
  fits : pageSize * frames < arch.modulus
  counted : allocator.count = allocator.freeFrames.card

section
variable {arch : Arch} {allocator after : PageFrameAllocator frames} {pageFrame i : Nat}

theorem lt_of_free (free : i ∈ allocator.freeFrames) : i < frames :=
  (BitArray.mem_clearBits.mp free).1

theorem bit_iff (inside : i < frames) :
    allocator.bitmap.bit i = false ↔ i ∈ allocator.freeFrames := by
  simp [freeFrames, BitArray.mem_clearBits, inside]

theorem isFree_eq :
    allocator.isFree pageFrame = some (decide (pageFrame / pageSize ∈ allocator.freeFrames)) := by
  unfold isFree
  by_cases inside : pageFrame / pageSize < frames
  · have free : allocator.bitmap.bit (pageFrame / pageSize) = false ↔ _ := bit_iff inside
    simp only [getCapacity, inside, if_true, BitArray.test_of_lt inside, Option.map_some, ← free]
    cases allocator.bitmap.bit (pageFrame / pageSize) <;> rfl
  · have absent : pageFrame / pageSize ∉ allocator.freeFrames := fun free => inside (lt_of_free free)
    simp [getCapacity, inside, absent]

theorem valid_markAllAsUsed (allocator : PageFrameAllocator frames) (nonempty : 0 < frames)
    (fits : pageSize * frames < arch.modulus) : Valid arch allocator.markAllAsUsed where
  nonempty := nonempty
  fits := fits
  counted := by simp [markAllAsUsed, freeFrames]

theorem freeFrames_markAllAsUsed : allocator.markAllAsUsed.freeFrames = ∅ := by
  simp [markAllAsUsed, freeFrames]

theorem Valid.construct (nonempty : 0 < frames) (fits : pageSize * frames < arch.modulus) :
    Valid arch (PageFrameAllocator.construct frames) :=
  valid_markAllAsUsed _ nonempty fits

theorem Valid.markAllAsUsed (valid : Valid arch allocator) : Valid arch allocator.markAllAsUsed :=
  valid_markAllAsUsed _ valid.nonempty valid.fits

theorem Valid.allocateSpecificPageFrame (valid : Valid arch allocator)
    (inside : pageFrame / pageSize < frames) :
    ∃ after, allocator.allocateSpecificPageFrame pageFrame =
        some (after, decide (pageFrame / pageSize ∈ allocator.freeFrames)) ∧
      Valid arch after ∧
      after.freeFrames = allocator.freeFrames.erase (pageFrame / pageSize) := by
  by_cases free : pageFrame / pageSize ∈ allocator.freeFrames
  · obtain ⟨bitmap, assigned, changed⟩ :=
      BitArray.assign_of_lt allocator.bitmap true inside
    have nonzero : allocator.count ≠ 0 := by
      rw [valid.counted]
      exact Finset.card_ne_zero_of_mem free
    have taken : bitmap.clearBits = allocator.freeFrames.erase (pageFrame / pageSize) := by
      ext i
      rw [Finset.mem_erase, BitArray.mem_clearBits, freeFrames, BitArray.mem_clearBits, changed]
      by_cases same : i = pageFrame / pageSize <;> simp [same]
    refine ⟨⟨allocator.count - 1, bitmap⟩, ?_, ⟨valid.nonempty, valid.fits, ?_⟩, taken⟩
    · simp [PageFrameAllocator.allocateSpecificPageFrame, BitArray.test_of_lt inside,
        (bit_iff inside).mpr free, nonzero, BitArray.set, assigned, free]
    · rw [valid.counted, ← Finset.card_erase_of_mem free]
      exact congrArg Finset.card taken.symm
  · have used : allocator.bitmap.bit (pageFrame / pageSize) = true := by
      simpa using mt (bit_iff inside).mp free
    refine ⟨allocator, ?_, valid, (Finset.erase_eq_of_notMem free).symm⟩
    simp [PageFrameAllocator.allocateSpecificPageFrame, BitArray.test_of_lt inside, used, free]

theorem allocateSpecificPageFrame_eq_none (outside : frames ≤ pageFrame / pageSize) :
    allocator.allocateSpecificPageFrame pageFrame = none := by
  simp [allocateSpecificPageFrame, BitArray.test_eq_none outside]

theorem Valid.deallocate (valid : Valid arch allocator) (inside : pageFrame / pageSize < frames) :
    ∃ after, PageFrameAllocator.deallocate arch allocator pageFrame = some after ∧
      Valid arch after ∧
      after.freeFrames = insert (pageFrame / pageSize) allocator.freeFrames := by
  by_cases free : pageFrame / pageSize ∈ allocator.freeFrames
  · refine ⟨allocator, ?_, valid, (Finset.insert_eq_of_mem free).symm⟩
    simp [PageFrameAllocator.deallocate, BitArray.test_of_lt inside, (bit_iff inside).mpr free]
  · obtain ⟨bitmap, assigned, changed⟩ :=
      BitArray.assign_of_lt allocator.bitmap false inside
    have used : allocator.bitmap.bit (pageFrame / pageSize) = true := by
      simpa using mt (bit_iff inside).mp free
    have returned : bitmap.clearBits = insert (pageFrame / pageSize) allocator.freeFrames := by
      ext i
      rw [Finset.mem_insert, BitArray.mem_clearBits, freeFrames, BitArray.mem_clearBits, changed]
      by_cases same : i = pageFrame / pageSize <;> simp [same, inside]
    have room : allocator.count + 1 = bitmap.clearBits.card := by
      rw [valid.counted, returned]
      exact (Finset.card_insert_of_notMem free).symm
    have bounded : bitmap.clearBits.card ≤ frames := (Finset.card_filter_le _ _).trans_eq (Finset.card_range _)
    have sum : arch.add allocator.count 1 = allocator.count + 1 := by
      have fits := valid.fits
      simp only [pageSize] at fits
      exact Arch.add_of_lt (by omega)
    refine ⟨⟨arch.add allocator.count 1, bitmap⟩, ?_, ⟨valid.nonempty, valid.fits, ?_⟩, returned⟩
    · simp [PageFrameAllocator.deallocate, BitArray.test_of_lt inside, used, BitArray.clear, assigned]
    · exact sum.trans room

theorem deallocate_eq_none (outside : frames ≤ pageFrame / pageSize) :
    deallocate arch allocator pageFrame = none := by
  simp [deallocate, BitArray.test_eq_none outside]

end

end PageFrameAllocator

end FlapjackOS.Frames
