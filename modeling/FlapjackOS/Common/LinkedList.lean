import Mathlib.Data.List.Forall2

/-! `LinkedList`. A pointer to a node is the list of the values from that node on, and the null pointer
the empty list. The links back are left out: nothing here follows them. -/

namespace FlapjackOS

structure LinkedList (α : Type) where
  head : List α
  count : Nat

namespace LinkedList
variable {α β : Type} {Holds : α → β → Prop} {list : LinkedList α} {values : List β}

def nil : LinkedList α := ⟨[], 0⟩

def pushFront (list : LinkedList α) (value : α) : LinkedList α :=
  { head := value :: list.head, count := list.count + 1 }

def nodeAt : List α → Nat → Option (List α)
  | head, 0 => some head
  -- `assert(head && head->next)`
  | _ :: value :: next, index + 1 => nodeAt (value :: next) index
  | _, _ + 1 => none

def at? (list : LinkedList α) (index : Int) : Option α :=
  if 0 ≤ index ∧ index < list.count then do
    let node ← nodeAt list.head index.toNat
    node.head?
  else none

/-- What is said of the values, one after the other. -/
structure Lists (Holds : α → β → Prop) (list : LinkedList α) (values : List β) : Prop where
  count : list.count = values.length
  nodes : List.Forall₂ Holds list.head values

theorem lists_nil : Lists Holds nil [] := ⟨rfl, .nil⟩

theorem Lists.pushFront (lists : Lists Holds list values) {value : α} {said : β} (holds : Holds value said) :
    Lists Holds (list.pushFront value) (said :: values) :=
  ⟨congrArg (· + 1) lists.count, .cons holds lists.nodes⟩

theorem nodeAt_eq {head : List α} {index : Nat} (inside : index < head.length) :
    nodeAt head index = some (head.drop index) := by
  induction index generalizing head with
  | zero => simp [nodeAt]
  | succ index ih =>
    match head with
    | [] | [_] => simp at inside
    | _ :: value :: next => exact ih (Nat.lt_of_succ_lt_succ inside)

theorem Lists.at {index : Nat} (lists : Lists Holds list values) (inside : index < values.length) :
    ∃ value, list.at? index = some value ∧ Holds value values[index] := by
  have within : index < list.head.length := lists.nodes.length_eq ▸ inside
  have bounds : (0 : Int) ≤ index ∧ (index : Int) < list.count := by
    rw [lists.count]
    omega
  refine ⟨list.head[index], ?_, lists.nodes.get within inside⟩
  rw [at?, if_pos bounds, Int.toNat_natCast, nodeAt_eq within]
  simp [within]

end LinkedList

end FlapjackOS
