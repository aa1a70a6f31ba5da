import FlapjackOS.Paging.Dispatch

/-! The loops over the pages of a range, in both memory maps and in the memory management unit. -/

namespace FlapjackOS.Paging

open Frames Runs

variable {σ : Type} {arch : Arch} {begin limit : Nat}

/-- `invalidate_pages` of `ConcreteHardwareMemoryManagementUnit`, for whatever the machine does
to invalidate a page. -/
def invalidatePages (arch : Arch) (invalidate : σ → Nat → Option σ) (state : σ) (begin limit : Nat) :
    Option σ :=
  forPages arch invalidate limit arch.modulus begin state

/-- The loops over a range of pages. -/
inductive PageLoop where
  | unmanagedMapPages (flags : ProtectionFlags)
  | unmanagedSetReadonly
  | managedMapPages (flags : ProtectionFlags)
  | managedSetReadonly
  | invalidatePages
  deriving DecidableEq, Repr

namespace PageLoop

def perform (arch : Arch) (actions : PageActions σ) (invalidate : σ → Nat → Option σ) (state : σ)
    (begin limit : Nat) : PageLoop → Option σ
  | unmanagedMapPages flags =>
    (GenericUnmanagedPhysicalMemoryMap arch actions).mapPages state begin limit flags
  | unmanagedSetReadonly => (GenericUnmanagedPhysicalMemoryMap arch actions).setReadonly state begin limit
  | managedMapPages flags => (ManagedPhysicalMemoryMap arch actions).mapPages state begin limit flags
  | managedSetReadonly => (ManagedPhysicalMemoryMap arch actions).setReadonly state begin limit
  | invalidatePages => Paging.invalidatePages arch invalidate state begin limit

/-- What the loop does with one page. -/
def body (actions : PageActions σ) (invalidate : σ → Nat → Option σ) : PageLoop → σ → Nat → Option σ
  | unmanagedMapPages flags | managedMapPages flags => actions.fill flags
  | unmanagedSetReadonly | managedSetReadonly => actions.protect
  | invalidatePages => invalidate

/-- Note the page instead of using it. -/
def note (visited : List Nat) (page : Nat) : Option (List Nat) := some (visited ++ [page])

/-- The pages that the loop visits, in order. -/
def visited (arch : Arch) (begin limit : Nat) (loop : PageLoop) : Option (List Nat) :=
  loop.perform arch ⟨fun _ => note, fun visited _ page _ => note visited page, note⟩ note [] begin limit

end PageLoop

/-- Every page that overlaps the range is visited once, and no other page is. -/
def VisitsOnce (begin limit : Nat) (visited : Option (List Nat)) : Prop :=
  ∃ pages, visited = some pages ∧ pages.Nodup ∧ ∀ page, page ∈ pages ↔
    page % pageSize = 0 ∧ page < limit ∧ begin < page + pageSize

section
variable (aligned : begin % pageSize = 0) (ordered : begin < limit) (small : limit < arch.modulus)
  (loop : PageLoop)
include aligned ordered small loop

theorem PageLoop.perform_eq (actions : PageActions σ) (invalidate : σ → Nat → Option σ) (state : σ) :
    loop.perform arch actions invalidate state begin limit =
      if Terminates arch begin limit then run (loop.body actions invalidate) state (visitedPages begin limit)
      else none := by
  cases loop with
  | unmanagedMapPages flags => exact (if_pos ordered).trans (forPages_eq (ordered.trans small))
  | managedMapPages flags => exact (if_pos ⟨aligned, ordered⟩).trans (forPages_eq (ordered.trans small))
  | unmanagedSetReadonly | managedSetReadonly | invalidatePages => exact forPages_eq (ordered.trans small)

theorem PageLoop.visited_eq :
    loop.visited arch begin limit =
      if Terminates arch begin limit then some (visitedPages begin limit) else none := by
  rw [visited, loop.perform_eq aligned ordered small]
  refine if_congr Iff.rfl ?_ rfl
  have noted := run_note id [] (visitedPages begin limit)
  rw [List.map_id, List.nil_append] at noted
  cases loop <;> exact noted

theorem PageLoop.visitsOnce_iff :
    VisitsOnce begin limit (loop.visited arch begin limit) ↔ limit + pageSize ≤ arch.modulus := by
  have ends : Terminates arch begin limit ↔ limit + pageSize ≤ arch.modulus := by
    rw [Terminates, aligned, Nat.add_zero]
  rw [loop.visited_eq aligned ordered small, ← ends]
  split
  · rename_i terminates
    refine iff_of_true ⟨_, rfl, ?_, fun page => ?_⟩ terminates
    · refine List.Nodup.map (fun k other same => ?_) List.nodup_range
      simp only [pageSize] at same
      omega
    · rw [mem_visitedPages]
      simp only [pageSize] at aligned ⊢
      omega
  · rename_i stuck
    refine iff_of_false ?_ stuck
    rintro ⟨pages, ended, _⟩
    cases ended

end

/-- A loop over a range that begins on a page boundary ends, and visits the pages of the range
once each, if and only if the range does not reach into the last page of the address space.
Whatever is done with a page is done with the pages visited, one after the other. -/
theorem page_loops_visit_iff (aligned : begin % pageSize = 0) (ordered : begin < limit)
    (small : limit < arch.modulus) (loop : PageLoop) :
    (VisitsOnce begin limit (loop.visited arch begin limit) ↔ limit + pageSize ≤ arch.modulus) ∧
    ∀ (σ : Type) (actions : PageActions σ) (invalidate : σ → Nat → Option σ) (state : σ),
      loop.perform arch actions invalidate state begin limit =
        (loop.visited arch begin limit).bind (run (loop.body actions invalidate) state) := by
  refine ⟨loop.visitsOnce_iff aligned ordered small, fun σ actions invalidate state => ?_⟩
  rw [loop.perform_eq aligned ordered small, loop.visited_eq aligned ordered small]
  split <;> rfl

theorem page_loops_visit_sample :
    VisitsOnce 0x400000 0x402001 (PageLoop.visited .x86_64 0x400000 0x402001 .invalidatePages) :=
  (page_loops_visit_iff (by decide) (by decide) (by decide) .invalidatePages).1.mpr (by decide)

/-- From the last page of the address space, the counter wraps around to zero before it gets
past an end in the same page. -/
theorem last_page_never_ends :
    Arch.i386.add 0xFFFFF000 pageSize = 0 ∧ 0 < 0xFFFFF001 ∧
      PageLoop.visited .i386 0xFFFFF000 0xFFFFF001 .invalidatePages = none ∧
      PageLoop.visited .i386 0xFFFFF000 0xFFFFF001 .unmanagedSetReadonly = none ∧
      PageLoop.visited .i386 0xFFFFF000 0xFFFFF001 (.unmanagedMapPages 2) = none := by
  have visited (loop : PageLoop) : loop.visited .i386 0xFFFFF000 0xFFFFF001 = none := by
    rw [loop.visited_eq (by decide) (by decide) (by decide), if_neg (by decide)]
  exact ⟨by decide, by decide, visited _, visited _, visited _⟩

end FlapjackOS.Paging
