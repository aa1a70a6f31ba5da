import Mathlib.Data.List.Forall2
import Mathlib.Data.List.InsertIdx
import Mathlib.Data.List.MinMax
import Mathlib.Order.Bounds.Basic

namespace FlapjackOS.Lists

theorem insertIdx_append_add (left right : List α) (i : Nat) (value : α) :
    (left ++ right).insertIdx (left.length + i) value = left ++ right.insertIdx i value := by
  induction left with
  | nil => simp
  | cons first rest ih => simp [Nat.succ_add, ih]

theorem insertIdx_append (left right : List α) (value : α) :
    (left ++ right).insertIdx left.length value = left ++ value :: right :=
  insertIdx_append_add left right 0 value

theorem forall₂_set {related : α → β → Prop} {left : List α} {right : List β}
    (pairs : List.Forall₂ related left right) (here : related first second) (i : Nat) :
    List.Forall₂ related (left.set i first) (right.set i second) := by
  induction pairs generalizing i with
  | nil => exact .nil
  | cons head tail ih =>
    cases i with
    | zero => exact .cons here tail
    | succ i => exact .cons head (ih i)

/-- In a sorted list the first minimum of a key is the smallest item with that key. -/
theorem argmin_le_of_pairwise [LinearOrder α] {key : α → Nat} {items : List α}
    (sorted : items.Pairwise (· < ·)) (least : best ∈ items.argmin key) (member : item ∈ items)
    (small : key item ≤ key best) : best ≤ item := by
  have early := List.index_of_argmin least member small
  rcases Nat.lt_or_eq_of_le early with before | same
  · have late := List.idxOf_lt_length_of_mem member
    have ordered := List.pairwise_iff_getElem.mp sorted _ _ (Nat.lt_trans before late) late before
    rw [List.getElem_idxOf, List.getElem_idxOf] at ordered
    exact ordered.le
  · exact (List.idxOf_inj (List.argmin_mem least)).mp same |>.le

theorem find?_range'_isLeast {p : Nat → Bool} {start stop k : Nat} :
    (List.range' start (stop - start)).find? p = some k ↔ IsLeast {i | start ≤ i ∧ i < stop ∧ p i} k := by
  rw [List.find?_range'_eq_some, List.mem_range'_1]
  constructor
  · rintro ⟨here, ⟨above, below⟩, first⟩
    refine ⟨⟨above, by omega, here⟩, ?_⟩
    rintro j ⟨after, -, there⟩
    by_contra before
    have other := first j after (by omega)
    simp [there] at other
  · rintro ⟨⟨above, below, here⟩, first⟩
    refine ⟨here, ⟨above, by omega⟩, fun j after before => ?_⟩
    by_contra there
    have later : k ≤ j := first ⟨after, by omega, by simpa using there⟩
    omega

end FlapjackOS.Lists
