import FlapjackOS.Malloc.Editing
import Mathlib.Data.List.MinMax

/-! Walks over the block list. Each loop of the source visits every header
once, in address order, and ends at the null pointer. -/

namespace FlapjackOS.Malloc

open Machine Tiling

section
variable {arch : Arch} {memory : Memory} {before base : Nat} {blocks : List Block}

theorem walk_chain {visit : β → Nat → β} (chain : Chain arch memory before 0 base blocks)
    (positive : 0 < base) (enough : blocks.length ≤ fuel) :
    walk arch memory visit fuel (follow 0 base blocks) state =
      some ((addresses (sizeofBlock arch) base blocks).foldl visit state) := by
  induction blocks generalizing before base fuel state with
  | nil =>
    unfold walk
    simp [follow, addresses]
  | cons block rest ih =>
    obtain ⟨fuel, rfl⟩ : ∃ less, fuel = less + 1 :=
      ⟨fuel - 1, by simp only [List.length_cons] at enough; omega⟩
    have start : follow 0 base (block :: rest) = base := if_neg (List.cons_ne_nil _ _)
    unfold walk
    rw [start, if_neg (by omega), chain.next]
    simp only [addresses, List.foldl_cons]
    exact ih chain.2 (by omega) (by simpa using enough)

end

section
variable (arch : Arch) (memory : Memory) (bytes : Nat) (suitable : Nat → Bool)

/-- The block is free, large enough and passes the extra test. -/
def Fits (block : Nat) : Prop :=
  bytes ≤ size arch memory block ∧ suitable block = true ∧ inuse arch memory block = false

instance Fits.decidable : DecidablePred (Fits arch memory bytes suitable) :=
  fun _ => inferInstanceAs (Decidable (_ ∧ _))

/-- The search ends with the first of the smallest blocks that fit, or with null if none does. -/
theorem foldl_considerBlock {candidates : List Nat} (nonzero : ∀ block ∈ candidates, block ≠ 0) :
    candidates.foldl (considerBlock arch memory bytes suitable) 0 =
      ((candidates.filter (Fits arch memory bytes suitable)).argmin (size arch memory)).getD 0 := by
  -- from the right, since `argmin` is a left fold as well
  induction candidates using List.reverseRecOn with
  | nil => rfl
  | append_singleton front last ih =>
    have earlier := ih fun block member => nonzero block (List.mem_append_left _ member)
    rw [List.foldl_append, earlier, List.filter_append, List.foldl_cons, List.foldl_nil, considerBlock]
    by_cases fitting : Fits arch memory bytes suitable last
    · rw [List.filter_cons_of_pos (by simpa using fitting), List.filter_nil, List.argmin_concat]
      obtain ⟨enough, accepted, idle⟩ := fitting
      cases least : (front.filter (Fits arch memory bytes suitable)).argmin (size arch memory) with
      | none => simp [enough, accepted, idle]
      | some best =>
        have member := (List.mem_filter.mp (List.argmin_mem least)).1
        have positive := nonzero best (List.mem_append_left _ member)
        simp only [Option.getD_some, enough, accepted, idle, positive, true_and, false_or]
        split <;> rfl
    · rw [List.filter_cons_of_neg (by simpa using fitting), List.filter_nil, List.append_nil, if_neg]
      rintro ⟨enough, accepted, idle, _⟩
      exact fitting ⟨enough, accepted, idle⟩

end

theorem foldl_found (candidates : List Nat) (block : Nat) (found : Bool) :
    candidates.foldl (fun found iter => found || iter == block) found =
      (found || decide (block ∈ candidates)) := by
  induction candidates generalizing found with
  | nil => simp
  | cons first rest ih =>
    simp only [List.foldl_cons, ih, List.mem_cons]
    by_cases same : first = block
    · simp [same]
    · simp [beq_false_of_ne same, Ne.symm same]

end FlapjackOS.Malloc
