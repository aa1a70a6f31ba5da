import FlapjackOS.Boot.Configuration

/-! Where the boot loader may put the modules. -/

namespace FlapjackOS.Boot

open Frames Paging Runs

variable {arch : Arch} {frames : Nat}

/-- A module as the boot loader describes it, with two words of 32 bits. -/
structure Module.Loaded (module : Module) : Prop where
  ordered : module.modStart ≤ module.modEnd
  small : module.modEnd < 2 ^ 32

theorem Module.Loaded.word {module : Module} (loaded : module.Loaded) (arch : Arch) :
    module.modStart < arch.modulus := by
  have large := arch.modulus_large
  obtain ⟨ordered, small⟩ := loaded
  omega

/-- The last address that the loop over the module visits. -/
def Module.lastVisited (module : Module) : Nat :=
  module.modStart + (module.modEnd - 1 - module.modStart) / pageSize * pageSize

/-- The module is empty or its last page is one that the allocator manages. -/
def Module.Managed (frames : Nat) (module : Module) : Prop :=
  module.modStart < module.modEnd → module.lastVisited / pageSize < frames

namespace PageFrameAllocatorConfigurationOperation

variable {operation : PageFrameAllocatorConfigurationOperation} {allocator : PageFrameAllocator frames}
  {module : Module}

/-- The frames that are marked as available are ones that the allocator manages. -/
def FramesManaged (arch : Arch) (operation : PageFrameAllocatorConfigurationOperation) (frames : Nat) : Prop :=
  ∀ pageFrame ∈ operation.pageFrames, operation.isPageFrameInAvailableRegion arch pageFrame = true →
    pageFrame / pageSize < frames

theorem markPageFrame_keeps (valid : allocator.Valid arch)
    (marked : operation.markPageFrame arch allocator pageFrame = some after) : after.Valid arch := by
  unfold markPageFrame at marked
  split at marked
  · exact (@PageFrameAllocator.Valid.step _ _ _ _ valid (.deallocate pageFrame) marked).1
  · cases marked
    exact valid

theorem markUnavailableMemory_isSome_iff (valid : allocator.Valid arch) :
    (operation.markUnavailableMemory arch allocator).isSome ↔ operation.FramesManaged arch frames := by
  refine run_isSome_iff (fun _ _ _ _ valid marked => markPageFrame_keeps valid marked)
    (fun state pageFrame _ valid => ?_) valid
  unfold markPageFrame
  split
  · next available =>
    by_cases inside : pageFrame / pageSize < frames
    · obtain ⟨after, result, _⟩ := valid.deallocate inside
      simp [result, inside]
    · simp [PageFrameAllocator.deallocate_eq_none (Nat.le_of_not_lt inside), inside, available]
  · next unavailable => simp [unavailable]

/-- The last page decides about all of them. -/
theorem visitedPages_managed_iff :
    (∀ pageFrame ∈ visitedPages module.modStart module.modEnd, pageFrame / pageSize < frames) ↔
      module.Managed frames := by
  simp only [mem_visitedPages, Module.Managed, Module.lastVisited]
  constructor
  · intro managed more
    refine managed _ ⟨Nat.le_add_right _ _, ?_, ?_⟩
    · simp only [pageSize]
      omega
    · rw [Nat.add_mul_mod_self_right]
  · rintro managed pageFrame ⟨low, high, same⟩
    have last := managed (by omega)
    simp only [pageSize] at last same ⊢
    omega

theorem markModule_isSome_iff (valid : allocator.Valid arch) (low : module.modStart < arch.modulus) :
    (markModule arch allocator module).isSome ↔ module.Managed frames := by
  rw [markModule, forPages_eq low]
  split
  · rw [← visitedPages_managed_iff]
    refine run_isSome_iff (fun state pageFrame next _ valid taken => ?_)
      (fun state pageFrame _ valid => ?_) valid
    · exact (@PageFrameAllocator.Valid.step _ _ _ _ valid (.allocateSpecificPageFrame pageFrame) taken).1
    · by_cases inside : pageFrame / pageSize < frames
      · obtain ⟨after, result, _⟩ := valid.allocateSpecificPageFrame inside
        simp [result, inside]
      · simp [PageFrameAllocator.allocateSpecificPageFrame_eq_none (Nat.le_of_not_lt inside), inside]
  · next stuck =>
    -- the loop would wrap around, so that the module has a page beyond all that can be managed
    refine iff_of_false Bool.false_ne_true ?_
    have fits := valid.fits
    have whole := PageFrameAllocator.modulus_pages arch
    simp only [Terminates, Module.Managed, Module.lastVisited, pageSize] at fits stuck whole ⊢
    omega

theorem configure_isSome_iff (nonempty : 0 < frames) (fits : pageSize * frames < arch.modulus)
    (loaded : ∀ module ∈ operation.modules, module.Loaded) (allocator : PageFrameAllocator frames) :
    (operation.configure arch allocator).isSome ↔
      operation.FramesManaged arch frames ∧ ∀ module ∈ operation.modules, module.Managed frames := by
  have start := PageFrameAllocator.valid_markAllAsUsed allocator nonempty fits
  rw [← markUnavailableMemory_isSome_iff start, configure]
  cases enumerated : operation.markUnavailableMemory arch allocator.markAllAsUsed with
  | none => simp
  | some middle =>
    have valid := run_preserves (fun _ _ _ _ valid marked => markPageFrame_keeps valid marked) start enumerated
    rw [Option.bind_eq_bind, Option.bind_some, Option.isSome_some, eq_self, true_and]
    refine run_isSome_iff (fun state module next member valid marked => ?_)
      (fun state module member valid => ?_) valid
    · rw [markModule, forPages_eq ((loaded module member).word arch)] at marked
      split at marked
      · refine run_preserves (fun state pageFrame next _ valid taken => ?_) valid marked
        exact (@PageFrameAllocator.Valid.step _ _ _ _ valid (.allocateSpecificPageFrame pageFrame) taken).1
      · cases marked
    · exact markModule_isSome_iff valid ((loaded module member).word arch)

/-- The configuration goes through if and only if the allocator manages every frame that is
marked as available and every page of every module. The first is so whenever the break is in
the kernel region and the allocator covers the region. -/
theorem configure_completes_iff (nonempty : 0 < frames) (fits : pageSize * frames < arch.modulus)
    (loaded : ∀ module ∈ operation.modules, module.Loaded) (allocator : PageFrameAllocator frames) :
    ((operation.configure arch allocator).isSome ↔
      operation.FramesManaged arch frames ∧ ∀ module ∈ operation.modules, module.Managed frames) ∧
    (kernelVirtualStart arch ≤ operation.breakAddress → kernelMemoryRegionSize ≤ pageSize * frames →
      (∀ pageFrame ∈ operation.pageFrames, pageFrame < arch.modulus) → operation.FramesManaged arch frames) := by
  refine ⟨configure_isSome_iff nonempty fits loaded allocator, ?_⟩
  intro low covers words pageFrame member available
  have small := available_lt low (words pageFrame member) (isPageFrameInAvailableRegion_iff.mp available)
  exact Nat.div_lt_of_lt_mul (small.trans_le covers)

theorem configure_completes_sample :
    (sample.configure .i386 (PageFrameAllocator.construct 8192)).isSome := by
  have loaded : ∀ module ∈ sample.modules, module.Loaded := List.forall_mem_singleton.mpr ⟨by decide, by decide⟩
  obtain ⟨completes, managed⟩ := @configure_completes_iff .i386 8192 sample (by decide) (by decide) loaded
    (.construct 8192)
  exact completes.mpr ⟨managed (by decide) (by decide) (by decide),
    List.forall_mem_singleton.mpr fun _ => by decide⟩

/-- The sample with another module. -/
def sampleWith (module : Module) : PageFrameAllocatorConfigurationOperation :=
  { sample with modules := [module] }

/-- A module of one page right behind the 32 megabytes that the kernel's allocator manages,
and one that ends in the last page of the address space. -/
theorem configure_rejects_modules :
    (sampleWith ⟨0x2000000, 0x2001000⟩).configure .i386 (PageFrameAllocator.construct 8192) = none ∧
    (sampleWith ⟨0xFFFFF000, 0xFFFFFFFF⟩).configure .i386 (PageFrameAllocator.construct 8192) = none := by
  constructor
  all_goals
    rw [← Option.not_isSome_iff_eq_none, configure_isSome_iff (by decide) (by decide)]
    · rintro ⟨_, managed⟩
      exact absurd (managed _ (List.mem_singleton_self _) (by decide)) (by decide)
    · intro other member
      rw [List.mem_singleton.mp member]
      exact ⟨by decide, by decide⟩

end PageFrameAllocatorConfigurationOperation

end FlapjackOS.Boot
