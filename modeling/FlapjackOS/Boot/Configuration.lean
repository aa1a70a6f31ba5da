import FlapjackOS.Paging.MemoryMap
import Mathlib.Data.Set.Card

/-! `PageFrameAllocatorConfigurationOperation`, which tells the allocator at boot which page
frames it may give out. -/

namespace FlapjackOS.Boot

open Frames Paging Runs

variable {arch : Arch} {frames : Nat}

/-- `KERNEL_MEMORY_REGION_SIZE`. -/
def kernelMemoryRegionSize : Nat := 32 * 1024 * 1024

/-- A boot module occupies the bytes from `modStart` up to `modEnd`. -/
structure Module where
  modStart : Nat
  modEnd : Nat
  deriving DecidableEq, Repr

/-- The two enumerators are the lists of what they return. -/
structure PageFrameAllocatorConfigurationOperation where
  breakAddress : Nat
  pageFrames : List Nat
  modules : List Module

/-- The page frame has a byte in common with the module. -/
def Module.Overlaps (module : Module) (pageFrame : Nat) : Prop :=
  ∃ x, pageFrame ≤ x ∧ x < pageFrame + pageSize ∧ module.modStart ≤ x ∧ x < module.modEnd

namespace PageFrameAllocatorConfigurationOperation

variable (arch) (operation : PageFrameAllocatorConfigurationOperation)

def isPageFrameInAvailableRegion (pageFrame : Nat) : Bool :=
  let logicalAddress := convertPhysicalToLogicalAddress arch pageFrame
  operation.breakAddress ≤ logicalAddress &&
    logicalAddress < arch.add (kernelVirtualStart arch) kernelMemoryRegionSize

section
variable (allocator : PageFrameAllocator frames)

/-- The function that `mark_unavailable_memory` passes to the enumeration. -/
def markPageFrame (pageFrame : Nat) :
    Option (PageFrameAllocator frames) :=
  if operation.isPageFrameInAvailableRegion arch pageFrame then allocator.deallocate arch pageFrame
  else some allocator

def markUnavailableMemory : Option (PageFrameAllocator frames) :=
  run (operation.markPageFrame arch) allocator operation.pageFrames

/-- The function that `mark_modules_memory` passes to the enumeration. -/
def markModule (module : Module) :
    Option (PageFrameAllocator frames) :=
  forPages arch (fun allocator pageFrame => (allocator.allocateSpecificPageFrame pageFrame).map Prod.fst)
    module.modEnd arch.modulus module.modStart allocator

def markModulesMemory : Option (PageFrameAllocator frames) :=
  run (markModule arch) allocator operation.modules

def configure : Option (PageFrameAllocator frames) := do
  let allocator ← operation.markUnavailableMemory arch allocator.markAllAsUsed
  operation.markModulesMemory arch allocator

end

/-- The frames that the allocator may give out. -/
structure Frees (pageFrame : Nat) : Prop where
  enumerated : pageFrame ∈ operation.pageFrames
  available : operation.breakAddress ≤ convertPhysicalToLogicalAddress arch pageFrame ∧
    convertPhysicalToLogicalAddress arch pageFrame < kernelVirtualStart arch + kernelMemoryRegionSize
  clear : ∀ module ∈ operation.modules, ¬ module.Overlaps pageFrame

/-- The break is in the kernel region, which the allocator covers, frames and modules start on
page boundaries, and modules end below the allocator's capacity. -/
structure Proper (frames : Nat) : Prop where
  capacity : kernelMemoryRegionSize ≤ pageSize * frames ∧ pageSize * frames < arch.modulus
  break_inside : kernelVirtualStart arch ≤ operation.breakAddress ∧
    operation.breakAddress ≤ kernelVirtualStart arch + kernelMemoryRegionSize
  pageFrames : ∀ pageFrame ∈ operation.pageFrames, pageFrame % pageSize = 0 ∧ pageFrame < arch.modulus
  modules : ∀ module ∈ operation.modules, module.modStart % pageSize = 0 ∧
    module.modEnd ≤ pageSize * frames

variable {arch operation} {allocator : PageFrameAllocator frames}
  {pageFrame i : Nat}

/-- Where the break is in the kernel region, only frames of the region are available, however
far beyond it the enumeration goes. -/
theorem available_lt (inside : kernelVirtualStart arch ≤ operation.breakAddress)
    (small : pageFrame < arch.modulus)
    (available : operation.breakAddress ≤ convertPhysicalToLogicalAddress arch pageFrame ∧
      convertPhysicalToLogicalAddress arch pageFrame < kernelVirtualStart arch + kernelMemoryRegionSize) :
    pageFrame < kernelMemoryRegionSize := by
  obtain ⟨low, high⟩ := available
  have above := inside.trans low
  unfold convertPhysicalToLogicalAddress at above high
  cases arch <;>
    simp only [Arch.add, Machine.wordAdd, Arch.modulus, Arch.wordBytes, kernelVirtualStart,
      kernelMemoryRegionSize] at above high small ⊢ <;> omega

theorem isPageFrameInAvailableRegion_iff :
    operation.isPageFrameInAvailableRegion arch pageFrame = true ↔
      operation.breakAddress ≤ convertPhysicalToLogicalAddress arch pageFrame ∧
        convertPhysicalToLogicalAddress arch pageFrame < kernelVirtualStart arch + kernelMemoryRegionSize := by
  have sum : arch.add (kernelVirtualStart arch) kernelMemoryRegionSize =
      kernelVirtualStart arch + kernelMemoryRegionSize := by
    cases arch <;> decide
  simp [isPageFrameInAvailableRegion, sum]

/-- Enumerating frames adds those that are available to the free ones. -/
theorem run_markPageFrame (valid : allocator.Valid arch) (list : List Nat)
    (inside : ∀ pageFrame ∈ list, operation.isPageFrameInAvailableRegion arch pageFrame = true →
      pageFrame / pageSize < frames) :
    ∃ after, run (operation.markPageFrame arch) allocator list = some after ∧ after.Valid arch ∧
      ∀ i, i ∈ after.freeFrames ↔ i ∈ allocator.freeFrames ∨ ∃ pageFrame ∈ list,
        operation.isPageFrameInAvailableRegion arch pageFrame = true ∧ pageFrame / pageSize = i := by
  induction list generalizing allocator with
  | nil => exact ⟨allocator, rfl, valid, by simp⟩
  | cons first rest ih =>
    have later := fun pageFrame member => inside pageFrame (List.mem_cons_of_mem first member)
    by_cases available : operation.isPageFrameInAvailableRegion arch first = true
    · obtain ⟨next, freed, validNext, free⟩ := valid.deallocate (inside first List.mem_cons_self available)
      obtain ⟨after, ran, result, members⟩ := ih validNext later
      refine ⟨after, by simp [run, markPageFrame, available, freed, ran], result, fun i => ?_⟩
      rw [members, free, Finset.mem_insert]
      simp only [List.mem_cons, exists_eq_or_imp, available, true_and]
      rw [or_assoc, or_left_comm, eq_comm]
    · obtain ⟨after, ran, result, members⟩ := ih valid later
      refine ⟨after, by simp [run, markPageFrame, available, ran], result, fun i => ?_⟩
      rw [members]
      simp [available]

/-- Taking the frames at some addresses, whether they are free or not. -/
theorem run_allocateSpecificPageFrame (valid : allocator.Valid arch) (list : List Nat)
    (inside : ∀ pageFrame ∈ list, pageFrame / pageSize < frames) :
    ∃ after, run (fun allocator pageFrame => (PageFrameAllocator.allocateSpecificPageFrame
        allocator pageFrame).map Prod.fst) allocator list = some after ∧ after.Valid arch ∧
      ∀ i, i ∈ after.freeFrames ↔ i ∈ allocator.freeFrames ∧
        ∀ pageFrame ∈ list, pageFrame / pageSize ≠ i := by
  induction list generalizing allocator with
  | nil => exact ⟨allocator, rfl, valid, by simp⟩
  | cons first rest ih =>
    obtain ⟨next, taken, validNext, free⟩ :=
      valid.allocateSpecificPageFrame (inside first List.mem_cons_self)
    obtain ⟨after, ran, result, members⟩ :=
      ih validNext fun pageFrame member => inside pageFrame (List.mem_cons_of_mem first member)
    refine ⟨after, by simp [run, taken, ran], result, fun i => ?_⟩
    rw [members, free, Finset.mem_erase, List.forall_mem_cons, ne_comm, and_assoc, and_left_comm]

/-- From a page boundary, the loop visits the frames that the module overlaps. -/
theorem visits_iff {module : Module} (aligned : module.modStart % pageSize = 0) :
    (∃ pageFrame ∈ visitedPages module.modStart module.modEnd, pageFrame / pageSize = i) ↔
      module.Overlaps (i * pageSize) := by
  simp only [mem_visitedPages, Module.Overlaps, pageSize] at aligned ⊢
  constructor
  · rintro ⟨pageFrame, ⟨low, high, same⟩, rfl⟩
    exact ⟨pageFrame, by omega, by omega, low, high⟩
  · rintro ⟨x, low, high, after, before⟩
    exact ⟨i * 4096, ⟨by omega, by omega, by omega⟩, by omega⟩

theorem markModule_eq (valid : allocator.Valid arch) {module : Module}
    (aligned : module.modStart % pageSize = 0) (bounded : module.modEnd ≤ pageSize * frames) :
    ∃ after, markModule arch allocator module = some after ∧ after.Valid arch ∧
      ∀ i, i ∈ after.freeFrames ↔ i ∈ allocator.freeFrames ∧ ¬ module.Overlaps (i * pageSize) := by
  have fits := valid.fits
  have whole := PageFrameAllocator.modulus_pages arch
  have inside : ∀ pageFrame ∈ visitedPages module.modStart module.modEnd, pageFrame / pageSize < frames := by
    intro pageFrame member
    have high := (mem_visitedPages.mp member).2.1
    exact Nat.div_lt_of_lt_mul (by omega)
  obtain ⟨after, ran, result, members⟩ := run_allocateSpecificPageFrame valid _ inside
  refine ⟨after, ?_, result, fun i => ?_⟩
  · rw [← ran, markModule]
    by_cases more : module.modStart < module.modEnd
    · have terminates : Terminates arch module.modStart module.modEnd := by
        simp only [Terminates, pageSize] at aligned bounded fits whole ⊢
        omega
      rw [forPages_eq (by omega), if_pos terminates]
    · rw [visitedPages_done (Nat.le_of_not_lt more)]
      cases arch.modulus with
      | zero => rw [forPages, if_neg more, run]
      | succ fuel => rw [forPages, if_neg more, run]
  · rw [members, ← visits_iff aligned]
    simp

theorem run_markModule (valid : allocator.Valid arch) (modules : List Module)
    (proper : ∀ module ∈ modules, module.modStart % pageSize = 0 ∧ module.modEnd ≤ pageSize * frames) :
    ∃ after, run (markModule arch) allocator modules = some after ∧ after.Valid arch ∧
      ∀ i, i ∈ after.freeFrames ↔ i ∈ allocator.freeFrames ∧
        ∀ module ∈ modules, ¬ module.Overlaps (i * pageSize) := by
  induction modules generalizing allocator with
  | nil => exact ⟨allocator, rfl, valid, by simp⟩
  | cons first rest ih =>
    obtain ⟨aligned, bounded⟩ := proper first List.mem_cons_self
    obtain ⟨next, marked, validNext, free⟩ := markModule_eq valid aligned bounded
    obtain ⟨after, ran, result, members⟩ :=
      ih validNext fun module member => proper module (List.mem_cons_of_mem first member)
    refine ⟨after, by simp [run, marked, ran], result, fun i => ?_⟩
    rw [members, free, List.forall_mem_cons, and_assoc]

theorem configure_eq (proper : operation.Proper arch frames) (allocator : PageFrameAllocator frames) :
    ∃ after, operation.configure arch allocator = some after ∧ after.Valid arch ∧
      ∀ i, i ∈ after.freeFrames ↔ operation.Frees arch (i * pageSize) := by
  obtain ⟨⟨covers, fits⟩, ⟨low, _⟩, whole, modules⟩ := proper
  have nonempty : 0 < frames := by
    simp only [kernelMemoryRegionSize, pageSize] at covers
    omega
  have inside : ∀ pageFrame ∈ operation.pageFrames,
      operation.isPageFrameInAvailableRegion arch pageFrame = true → pageFrame / pageSize < frames := by
    intro pageFrame member available
    have small := available_lt low (whole pageFrame member).2 (isPageFrameInAvailableRegion_iff.mp available)
    exact Nat.div_lt_of_lt_mul (small.trans_le covers)
  have start := PageFrameAllocator.valid_markAllAsUsed allocator nonempty fits
  obtain ⟨middle, enumerated, valid, free⟩ := run_markPageFrame start operation.pageFrames inside
  obtain ⟨after, marked, result, members⟩ := run_markModule valid operation.modules modules
  refine ⟨after, ?_, result, fun i => ?_⟩
  · simp only [configure, markUnavailableMemory, enumerated, Option.bind_eq_bind, Option.bind_some]
    exact marked
  · rw [members, free, PageFrameAllocator.freeFrames_markAllAsUsed]
    constructor
    · rintro ⟨none | ⟨pageFrame, member, available, place⟩, clear⟩
      · simp at none
      · have aligned := (whole pageFrame member).1
        have same : pageFrame = i * pageSize := by
          simp only [pageSize] at aligned place ⊢
          omega
        subst same
        exact ⟨member, isPageFrameInAvailableRegion_iff.mp available, clear⟩
    · rintro ⟨member, available, clear⟩
      exact ⟨.inr ⟨_, member, isPageFrameInAvailableRegion_iff.mpr available, PageFrameAllocator.frame_index⟩, clear⟩

/-- After the configuration, a frame is free if and only if it was enumerated, is available
and overlaps no module, and the allocator has counted these frames. -/
theorem configure_frees_exactly (proper : operation.Proper arch frames)
    (allocator : PageFrameAllocator frames) :
    ∃ after, operation.configure arch allocator = some after ∧
      (∀ pageFrame, pageFrame % pageSize = 0 →
        (after.isFree pageFrame = some true ↔ operation.Frees arch pageFrame)) ∧
      after.count = Set.ncard {pageFrame | operation.Frees arch pageFrame} := by
  obtain ⟨after, configured, valid, members⟩ := configure_eq proper allocator
  refine ⟨after, configured, fun pageFrame aligned => ?_, ?_⟩
  · have place : pageFrame / pageSize * pageSize = pageFrame := by
      simp only [pageSize] at aligned ⊢
      omega
    rw [PageFrameAllocator.isFree_eq, Option.some.injEq, decide_eq_true_iff, members, place]
  · have image : (fun i => i * pageSize) '' after.freeFrames = {pageFrame | operation.Frees arch pageFrame} := by
      ext pageFrame
      constructor
      · rintro ⟨i, free, rfl⟩
        exact (members i).mp free
      · intro frees
        have aligned := (proper.pageFrames pageFrame frees.enumerated).1
        have place : pageFrame / pageSize * pageSize = pageFrame := by
          simp only [pageSize] at aligned ⊢
          omega
        exact ⟨pageFrame / pageSize, (members _).mpr (place.symm ▸ frees), place⟩
    have injective : Function.Injective fun i => i * pageSize := by
      intro i j same
      simp only [pageSize] at same
      omega
    rw [← image, Set.ncard_image_of_injective _ injective, Set.ncard_coe_finset, valid.counted]

/-- Frames around the kernel's break, one of them twice and one far beyond the region, and a
module that ends inside a page. -/
def sample : PageFrameAllocatorConfigurationOperation where
  breakAddress := 0xC0200000
  pageFrames := [0x1FF000, 0x200000, 0x201000, 0x200000, 0x202000, 0x203000, 0x40200000]
  modules := [⟨0x201000, 0x202001⟩]

theorem configure_frees_exactly_sample :
    ∃ after, sample.configure .i386 (PageFrameAllocator.construct 8192) = some after ∧
      (∀ pageFrame, pageFrame % pageSize = 0 →
        (after.isFree pageFrame = some true ↔ sample.Frees .i386 pageFrame)) ∧
      after.count = Set.ncard {pageFrame | sample.Frees .i386 pageFrame} :=
  configure_frees_exactly ⟨by decide, by decide, by decide, by decide⟩ _

end PageFrameAllocatorConfigurationOperation

end FlapjackOS.Boot
