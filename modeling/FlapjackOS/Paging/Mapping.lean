import FlapjackOS.Paging.Access

namespace FlapjackOS.Paging

open Frames

variable {arch : Arch} {frames : Nat} {allocator after : PageFrameAllocator frames}
  {entry : PageEntry arch} {flags : ProtectionFlags} {physicalAddress : Nat}

namespace PageEntry

@[simp]
theorem isPresent_setProtection : (entry.setProtection flags).isPresent = true := by
  simp [setProtection, isPresent]

@[simp]
theorem isReadwrite_setProtection :
    isReadwrite (entry.setProtection flags).pte = flags.writable := by
  simp [setProtection]

@[simp]
theorem isGlobal_setProtection : isGlobal (entry.setProtection flags).pte = flags.global := by
  simp [setProtection]

@[simp]
theorem pageFrame_setProtection : (entry.setProtection flags).pageFrame = entry.pageFrame := rfl

@[simp]
theorem frameAddress_setProtection :
    frameAddress (entry.setProtection flags).pte = frameAddress entry.pte := by
  simp only [setProtection, setGlobal, setSupervisor, Paging.setReadwrite, setPresent]
  rw [frameAddress_setFlag (by decide), frameAddress_setFlag (by decide),
    frameAddress_setFlag (by decide), frameAddress_setFlag (by decide)]

@[simp]
theorem isPresent_setReadwrite (readwrite : Bool) :
    (entry.setReadwrite readwrite).isPresent = entry.isPresent := by
  simp [setReadwrite, isPresent]

@[simp]
theorem isReadwrite_setReadwrite (readwrite : Bool) :
    isReadwrite (entry.setReadwrite readwrite).pte = readwrite := by
  simp [setReadwrite]

@[simp]
theorem pageFrame_setReadwrite (readwrite : Bool) :
    (entry.setReadwrite readwrite).pageFrame = entry.pageFrame := rfl

@[simp]
theorem frameAddress_setReadwrite (readwrite : Bool) :
    frameAddress (entry.setReadwrite readwrite).pte = frameAddress entry.pte := by
  simp only [setReadwrite, Paging.setReadwrite]
  rw [frameAddress_setFlag (by decide)]

/-- The frames that the controller of the entry gives back when it is destroyed. -/
def returned (entry : PageEntry arch) : Finset Nat :=
  match entry.pageFrame with
  | some controller => if controller.hasAllocator then {controller.pageFrame / pageSize} else ∅
  | none => ∅

/-- The controller can be destroyed. -/
def Releasable (frames : Nat) (entry : PageEntry arch) : Prop := ∀ i ∈ entry.returned, i < frames

theorem dropPageFrame_eq (valid : allocator.Valid arch) (releasable : entry.Releasable frames) :
    ∃ after, entry.dropPageFrame allocator = some after ∧ after.Valid arch ∧
      after.freeFrames = allocator.freeFrames ∪ entry.returned := by
  cases owns : entry.pageFrame with
  | none => exact ⟨allocator, by simp [dropPageFrame, owns], valid, by simp [returned, owns]⟩
  | some controller =>
    cases has : controller.hasAllocator with
    | false =>
      refine ⟨allocator, ?_, valid, by simp [returned, owns, has]⟩
      simp [dropPageFrame, owns, PageFrameController.release, has]
    | true =>
      have single : entry.returned = {controller.pageFrame / pageSize} := by
        simp [returned, owns, has]
      have inside : controller.pageFrame / pageSize < frames :=
        releasable _ (single ▸ Finset.mem_singleton_self _)
      obtain ⟨after, done, validAfter, free⟩ := valid.deallocate inside
      refine ⟨after, ?_, validAfter, ?_⟩
      · simp [dropPageFrame, owns, PageFrameController.release, has, done]
      · rw [free, single, Finset.insert_eq, Finset.union_comm]

/-- What `set_mapping` makes of an entry, once it has a new controller. -/
structure Mapped (flags : ProtectionFlags) (controller : PageFrameController)
    (changed : PageEntry arch) : Prop where
  present : changed.isPresent = true
  readwrite : isReadwrite changed.pte = flags.writable
  pageFrame : changed.pageFrame = some controller
  address : Representable arch controller.pageFrame →
    frameAddress changed.pte = controller.pageFrame

theorem setPageFrame_some (controller : PageFrameController) :
    entry.setPageFrame allocator (some controller) = (entry.dropPageFrame allocator).bind fun after =>
      (setFrameAddress entry.pte controller.pageFrame).map fun pte =>
        (after, ⟨setPresent pte (controller.pageFrame != 0), some controller⟩) := by
  by_cases zero : controller.pageFrame = 0
  · simp [setPageFrame, Option.filter, zero, Option.map_eq_bind]
  · simp [setPageFrame, Option.filter, zero, Option.map_eq_bind, bne_iff_ne.mpr zero]

theorem setPageFrame_eq (controller : PageFrameController) (flags : ProtectionFlags)
    (valid : allocator.Valid arch) (releasable : entry.Releasable frames)
    (aligned : controller.pageFrame % pageSize = 0) :
    ∃ after changed, entry.setPageFrame allocator (some controller) = some (after, changed) ∧
      after.Valid arch ∧ after.freeFrames = allocator.freeFrames ∪ entry.returned ∧
      Mapped flags controller (changed.setProtection flags) := by
  obtain ⟨after, dropped, validAfter, free⟩ := dropPageFrame_eq valid releasable
  obtain ⟨pte, written, _, reads⟩ := setFrameAddress_aligned entry.pte aligned
  refine ⟨after, ⟨setPresent pte (controller.pageFrame != 0), some controller⟩, ?_, validAfter, free,
    by simp, by simp, rfl, fun small => ?_⟩
  · rw [setPageFrame_some, dropped, Option.bind_some, written, Option.map_some]
  · rw [frameAddress_setProtection, setPresent, frameAddress_setFlag (by decide), reads small]

theorem setMappingTo_eq (flags : ProtectionFlags) (valid : allocator.Valid arch)
    (releasable : entry.Releasable frames) (aligned : physicalAddress % pageSize = 0) :
    ∃ after changed, entry.setMappingTo allocator physicalAddress flags = some (after, changed) ∧
      after.Valid arch ∧ after.freeFrames = allocator.freeFrames ∪ entry.returned ∧
      Mapped flags (.ofPageFrame physicalAddress) changed := by
  obtain ⟨after, changed, set, validAfter, free, mapped⟩ :=
    setPageFrame_eq (.ofPageFrame physicalAddress) flags valid releasable aligned
  exact ⟨after, changed.setProtection flags, by simp [setMappingTo, set], validAfter, free, mapped⟩

/-- `allocate` has taken frame `i` for one page. -/
structure Takes (before after : Finset Nat) (i : Nat) : Prop where
  after : after = before.erase i
  low : 1 ≤ i
  free : i ∈ before
  lowest : ∀ j, 1 ≤ j → j < i → j ∉ before

/-- If there is no frame left, the entry becomes present all the same. -/
theorem setMappingFrom_eq (flags : ProtectionFlags) (valid : allocator.Valid arch)
    (empty : entry.returned = ∅) :
    ∃ after changed, entry.setMappingFrom allocator flags = some (after, changed) ∧
      after.Valid arch ∧
      ((∃ i, Takes allocator.freeFrames after.freeFrames i ∧
        Mapped flags { hasAllocator := true, pageFrame := i * pageSize } changed) ∨
      ((∀ i, 1 ≤ i → i ∉ allocator.freeFrames) ∧ after.freeFrames = allocator.freeFrames ∧
        Mapped flags { hasAllocator := true, pageFrame := 0 } changed)) := by
  have releasable : entry.Releasable frames := by simp [Releasable, empty]
  rcases valid.allocatePage with ⟨i, taken, low, free, lowest, allocated, validTaken, erased⟩ |
    ⟨exhausted, allocated⟩
  · obtain ⟨after, changed, set, validAfter, freeAfter, mapped⟩ := setPageFrame_eq
      { hasAllocator := true, pageFrame := i * pageSize } flags validTaken releasable
      (Nat.mul_mod_left i pageSize)
    refine ⟨after, changed.setProtection flags, ?_, validAfter, .inl ⟨i, ⟨?_, low, free, lowest⟩, mapped⟩⟩
    · simp [setMappingFrom, PageFrameController.ofAllocator, allocated, set]
    · rw [freeAfter, erased, empty, Finset.union_empty]
  · obtain ⟨after, changed, set, validAfter, freeAfter, mapped⟩ := setPageFrame_eq
      { hasAllocator := true, pageFrame := 0 } flags valid releasable rfl
    refine ⟨after, changed.setProtection flags, ?_, validAfter, .inr ⟨exhausted, ?_, mapped⟩⟩
    · simp [setMappingFrom, PageFrameController.ofAllocator, allocated, set]
    · rw [freeAfter, empty, Finset.union_empty]

/-- The entries that the memory map makes: the controller can be destroyed, and an
entry that is not present has none. -/
structure Tidy (frames : Nat) (entry : PageEntry arch) : Prop where
  releasable : entry.Releasable frames
  absent : entry.isPresent = false → entry.pageFrame = none

theorem Tidy.returned_absent (tidy : Tidy frames entry) (absent : entry.isPresent = false) :
    entry.returned = ∅ := by
  rw [returned, tidy.absent absent]

theorem Tidy.congr {changed : PageEntry arch} (tidy : Tidy frames entry)
    (present : entry.isPresent = true → changed.isPresent = true)
    (pageFrame : changed.pageFrame = entry.pageFrame) : Tidy frames changed := by
  refine ⟨?_, fun absent => ?_⟩
  · simpa [Releasable, returned, pageFrame] using tidy.releasable
  · rw [pageFrame]
    refine tidy.absent (Bool.eq_false_of_not_eq_true fun here => ?_)
    rw [present here] at absent
    cases absent

theorem Mapped.tidy {controller : PageFrameController} {changed : PageEntry arch}
    (mapped : Mapped flags controller changed)
    (inside : controller.hasAllocator = true → controller.pageFrame / pageSize < frames) :
    Tidy frames changed := by
  refine ⟨?_, fun absent => ?_⟩
  · cases has : controller.hasAllocator with
    | false => simp [Releasable, returned, mapped.pageFrame, has]
    | true => simpa [Releasable, returned, mapped.pageFrame, has] using inside has
  · rw [mapped.present] at absent
    cases absent

end PageEntry

section
variable {changed : PageEntry arch}

open PageEntry

/-- The entry of a page that keeps its frame. -/
structure Kept (flags : ProtectionFlags) (entry changed : PageEntry arch) : Prop where
  present : changed.isPresent = true
  readwrite : isReadwrite changed.pte = flags.writable
  pageFrame : changed.pageFrame = entry.pageFrame
  address : frameAddress changed.pte = frameAddress entry.pte

theorem kept_setProtection : Kept flags entry (entry.setProtection flags) :=
  ⟨by simp, by simp, by simp, by simp⟩

theorem Kept.setProtection (kept : Kept flags entry changed) :
    Kept flags entry (changed.setProtection flags) :=
  ⟨by simp, by simp, by simp [kept.pageFrame], by simp [kept.address]⟩

theorem Kept.tidy (kept : Kept flags entry changed) (tidy : entry.Tidy frames) :
    changed.Tidy frames :=
  tidy.congr (fun _ => kept.present) kept.pageFrame

/-- `map_page` maps the entry anew: always on i386, on x86_64 only if it is not present. -/
def Remaps (entry : PageEntry arch) : Prop := arch = .i386 ∨ entry.isPresent = false

instance : Decidable (Remaps entry) := inferInstanceAs (Decidable (_ ∨ _))

theorem mapEntry_remaps (physicalAddress : Nat) (flags : ProtectionFlags) (remaps : Remaps entry) :
    mapEntry physicalAddress flags allocator entry =
      entry.setMappingTo allocator physicalAddress flags := by
  cases arch with
  | i386 => rfl
  | x86_64 =>
    have absent : entry.isPresent = false := remaps.resolve_left (by decide)
    simp [mapEntry, X86_64.setPageFrameMapping, X86_64.setPageEntryProtection, absent]

theorem mapEntry_keeps (physicalAddress : Nat) (flags : ProtectionFlags) (keeps : ¬ Remaps entry) :
    mapEntry physicalAddress flags allocator entry =
      some (allocator, (entry.setProtection flags).setProtection flags) := by
  rw [Remaps, not_or, Bool.not_eq_false] at keeps
  obtain ⟨other, present⟩ := keeps
  cases arch with
  | i386 => exact absurd rfl other
  | x86_64 => simp [mapEntry, X86_64.setPageFrameMapping, X86_64.setPageEntryProtection, present]

theorem mapEntry_eq (flags : ProtectionFlags) (valid : allocator.Valid arch)
    (tidy : entry.Tidy frames) (aligned : physicalAddress % pageSize = 0) :
    ∃ after changed, mapEntry physicalAddress flags allocator entry = some (after, changed) ∧
      after.Valid arch ∧ changed.Tidy frames ∧ changed.isPresent = true ∧
      isReadwrite changed.pte = flags.writable := by
  by_cases remaps : Remaps entry
  · obtain ⟨after, changed, set, validAfter, _, mapped⟩ :=
      setMappingTo_eq flags valid tidy.releasable aligned
    have replaced : changed.Tidy frames := mapped.tidy fun has => by cases has
    exact ⟨after, changed, (mapEntry_remaps _ flags remaps).trans set, validAfter, replaced,
      mapped.present, mapped.readwrite⟩
  · have kept : Kept flags entry ((entry.setProtection flags).setProtection flags) :=
      kept_setProtection.setProtection
    exact ⟨allocator, _, mapEntry_keeps _ flags remaps, valid, kept.tidy tidy, kept.present,
      kept.readwrite⟩

/-- Only x86_64 asserts that the address of the frame is aligned. -/
theorem mapEntry_returns (flags : ProtectionFlags) (valid : allocator.Valid arch)
    (tidy : entry.Tidy frames) (asserted : arch = .x86_64 → physicalAddress % pageSize = 0) :
    ∃ after changed, mapEntry physicalAddress flags allocator entry = some (after, changed) := by
  cases arch with
  | i386 =>
    obtain ⟨after, dropped, _⟩ := dropPageFrame_eq valid tidy.releasable
    simp only [mapEntry, setMappingTo, setPageFrame_some, dropped]
    exact ⟨after, _, rfl⟩
  | x86_64 =>
    obtain ⟨after, changed, used, _⟩ := mapEntry_eq flags valid tidy (asserted rfl)
    exact ⟨after, changed, used⟩

/-- Wherever `map_page` returns, the entry has the protection of the flags. -/
theorem mapEntry_protection (valid : allocator.Valid arch) (tidy : entry.Tidy frames)
    (used : mapEntry physicalAddress flags allocator entry = some (after, changed)) :
    after.Valid arch ∧ changed.Tidy frames ∧ ∃ base, changed = PageEntry.setProtection base flags := by
  by_cases remaps : Remaps entry
  · rw [mapEntry_remaps _ flags remaps] at used
    obtain ⟨⟨dropped, base⟩, assigned, done⟩ := Option.bind_eq_some_iff.mp used
    cases done
    obtain ⟨other, drops, validAfter, _⟩ := dropPageFrame_eq valid tidy.releasable
    rw [setPageFrame_some, drops, Option.bind_some] at assigned
    obtain ⟨pte, _, same⟩ := Option.map_eq_some_iff.mp assigned
    cases same
    refine ⟨validAfter, ⟨?_, fun absent => ?_⟩, _, rfl⟩
    · simp [Releasable, returned, PageFrameController.ofPageFrame]
    · rw [isPresent_setProtection] at absent
      cases absent
  · rw [mapEntry_keeps _ flags remaps] at used
    cases used
    exact ⟨valid, kept_setProtection.setProtection.tidy tidy, _, rfl⟩

theorem fillEntry_present (allocator : PageFrameAllocator frames) (flags : ProtectionFlags)
    (present : entry.isPresent = true) :
    ∃ changed, fillEntry flags allocator entry = some (allocator, changed) ∧
      Kept flags entry changed := by
  cases arch with
  | i386 => exact ⟨_, if_pos present, kept_setProtection⟩
  | x86_64 =>
    refine ⟨(entry.setProtection flags).setProtection flags, ?_, kept_setProtection.setProtection⟩
    simp [fillEntry, X86_64.allocateAndSetPageFrameMapping, X86_64.setPageEntryProtection, present]

theorem fillEntry_absent (flags : ProtectionFlags) (absent : entry.isPresent = false) :
    fillEntry flags allocator entry = entry.setMappingFrom allocator flags := by
  cases arch with
  | i386 => simp [fillEntry, I386.fillEntry, absent]
  | x86_64 =>
    simp [fillEntry, X86_64.allocateAndSetPageFrameMapping, X86_64.setPageEntryProtection, absent]

theorem readonlyEntry_eq (allocator : PageFrameAllocator frames) (entry : PageEntry arch) :
    ∃ changed, readonlyEntry allocator entry = some (allocator, changed) ∧
      changed.isPresent = entry.isPresent ∧ changed.pageFrame = entry.pageFrame ∧
      frameAddress changed.pte = frameAddress entry.pte ∧
      (entry.isPresent = true → isReadwrite changed.pte = false) := by
  cases arch with
  | i386 => exact ⟨_, rfl, by simp, by simp, by simp, fun _ => by simp⟩
  | x86_64 =>
    cases present : entry.isPresent with
    | true =>
      refine ⟨entry.setReadwrite false, ?_, by simp [present], by simp, by simp, fun _ => by simp⟩
      simp [readonlyEntry, X86_64.setPageEntryReadOnly, present]
    | false =>
      refine ⟨entry, ?_, present, rfl, rfl, fun here => by cases here⟩
      simp [readonlyEntry, X86_64.setPageEntryReadOnly, present]

end

end FlapjackOS.Paging
