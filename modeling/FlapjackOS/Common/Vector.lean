import FlapjackOS.Common.UniquePointer

/-! `Vector`. An operation returns the vector with the elements whose destructor has
run, in order; `none` stands for a failed assertion or for the use of a raw slot. -/

namespace FlapjackOS

/-- `slots` is the storage of `capacity_` slots. A raw slot is `none`. -/
structure Vector (α : Type) where
  slots : List (Option α)
  count : Nat
  deriving DecidableEq, Repr

namespace Vector

variable {α : Type}

def nil : Vector α := { slots := [], count := 0 }

def capacity (vector : Vector α) : Nat := vector.slots.length

def empty (vector : Vector α) : Bool := vector.count == 0

/-- The object in a slot. -/
def object (slots : List (Option α)) (i : Nat) : Option α := (slots[i]?).join

def at? (vector : Vector α) (i : Nat) : Option α :=
  if i < vector.count then object vector.slots i else none

def front (vector : Vector α) : Option α := vector.at? 0

/-- Assign to the element that `front` refers to. -/
def setFront (vector : Vector α) (value : α) : Vector α :=
  { vector with slots := vector.slots.set 0 (some value) }

/-- The elements move to new storage. What is left of them in the old storage is
not destroyed. -/
def reserve (vector : Vector α) (newCapacity : Nat) : Vector α :=
  if vector.capacity < newCapacity then
    { vector with
      slots := vector.slots.take vector.count ++ List.replicate (newCapacity - vector.count) none }
  else vector

def growthFactor : Nat := 2

def increaseCapacityForInsertion (vector : Vector α) : Vector α :=
  if vector.capacity = 0 then vector.reserve 1
  else if vector.count = vector.capacity then vector.reserve (vector.count * growthFactor)
  else vector

section
variable [Movable α]

/-- The loop of `insert`, for `i` down to `index`: the element below slot `i` moves up. -/
def shiftUp (index : Nat) (slots : List (Option α)) : Nat → Option (List (Option α) × List α)
  | 0 => some (slots, [])
  | i + 1 =>
    if index < i + 1 then do
      let prev ← object slots i
      let (slots, destroyed) ← shiftUp index ((slots.set (i + 1) (some prev)).set i none) i
      return (slots, Movable.residue prev :: destroyed)
    else some (slots, [])

def insert (vector : Vector α) (index : Nat) (value : α) : Option (Vector α × List α) :=
  if index ≤ vector.count then do
    let grown := vector.increaseCapacityForInsertion
    let (slots, destroyed) ← shiftUp index grown.slots grown.count
    return ({ slots := slots.set index (some value), count := grown.count + 1 }, destroyed)
  else none

def pushBack (vector : Vector α) (value : α) : Option (Vector α × List α) :=
  vector.insert vector.count value

/-- The temporary that is constructed from the argument is moved from. -/
def emplaceBack (vector : Vector α) (value : α) : Option (Vector α × List α) :=
  vector.pushBack value

/-- The loop of `remove`, at slot `i` with so many slots to go. The last slot keeps
what is left of the object that was in it. -/
def closeGap (slots : List (Option α)) (i : Nat) : Nat → Option (List (Option α) × List α)
  | 0 => some (slots, [])
  | rest + 1 => do
    let curr ← object slots i
    let next ← object slots (i + 1)
    let (slots, destroyed) ← closeGap
      ((slots.set i (some next)).set (i + 1) (some (Movable.residue next))) (i + 1) rest
    return (slots, curr :: destroyed)

def remove (vector : Vector α) (index : Nat) : Option (Vector α × List α) :=
  if index < vector.count then do
    let (slots, destroyed) ← closeGap vector.slots index (vector.count - 1 - index)
    return ({ slots, count := vector.count - 1 }, destroyed)
  else none

def popFront (vector : Vector α) : Option (Vector α × List α) := vector.remove 0

end

/-- The objects in the first `count_` slots. -/
def elements (vector : Vector α) : List α := (vector.slots.take vector.count).filterMap id

/-- The vector is in good order: the first `count_` slots hold these elements. -/
structure Holds (vector : Vector α) (elements : List α) : Prop where
  slots : elements.map some <+: vector.slots
  count : vector.count = elements.length

variable {vector : Vector α} {elements : List α} {first : α}

theorem holds_nil : (nil : Vector α).Holds [] := ⟨List.nil_prefix, rfl⟩

theorem Holds.elements_eq (holds : vector.Holds elements) : vector.elements = elements := by
  obtain ⟨spare, stored⟩ := holds.slots
  have taken : vector.slots.take vector.count = elements.map some := by
    rw [← stored, holds.count]
    exact List.take_left' (List.length_map ..)
  simp [Vector.elements, taken]

theorem Holds.empty_iff (holds : vector.Holds elements) : vector.empty = true ↔ elements = [] := by
  simp [empty, holds.count]

theorem Holds.front (holds : vector.Holds (first :: elements)) : vector.front = some first := by
  obtain ⟨spare, stored⟩ := holds.slots
  simp [Vector.front, at?, object, ← stored, holds.count]

theorem Holds.setFront (holds : vector.Holds (first :: elements)) (value : α) :
    (vector.setFront value).Holds (value :: elements) := by
  obtain ⟨spare, stored⟩ := holds.slots
  refine ⟨⟨spare, ?_⟩, holds.count⟩
  simp [Vector.setFront, ← stored]

theorem Holds.grown (holds : vector.Holds elements) :
    ∃ slot spare, vector.increaseCapacityForInsertion =
      { slots := elements.map some ++ slot :: spare, count := elements.length } := by
  obtain ⟨slots, count⟩ := vector
  obtain ⟨⟨spare, rfl⟩, rfl⟩ := holds
  cases spare with
  | cons slot spare =>
    refine ⟨slot, spare, ?_⟩
    simp [increaseCapacityForInsertion, capacity]
  | nil =>
    cases elements with
    | nil => exact ⟨none, [], rfl⟩
    | cons first rest =>
      refine ⟨none, List.replicate rest.length none, ?_⟩
      have room : (rest.length + 1) * growthFactor - (rest.length + 1) = rest.length + 1 := by
        simp only [growthFactor]
        omega
      have larger : rest.length + 1 < (rest.length + 1) * growthFactor := by
        simp only [growthFactor]
        omega
      simp [increaseCapacityForInsertion, capacity, reserve, larger, room, List.replicate_succ,
        List.take_of_length_le]

section
variable [Movable α]

theorem shiftUp_self (slots : List (Option α)) (i : Nat) : shiftUp i slots i = some (slots, []) := by
  cases i with
  | zero => rfl
  | succ i => simp [shiftUp]

theorem Holds.emplaceBack (holds : vector.Holds elements) (value : α) :
    ∃ after, vector.emplaceBack value = some (after, []) ∧ after.Holds (elements ++ [value]) := by
  obtain ⟨slot, spare, grown⟩ := holds.grown
  refine ⟨{ slots := elements.map some ++ some value :: spare, count := elements.length + 1 }, ?_, ?_⟩
  · simp [Vector.emplaceBack, pushBack, insert, grown, holds.count, shiftUp_self]
  · exact ⟨⟨spare, by simp⟩, by simp⟩

/-- An element that the loop destroys is the one at the gap or has been moved from. -/
theorem closeGap_spec (before : List (Option α)) (first : α) (elements : List α)
    (spare : List (Option α)) :
    ∃ last destroyed,
      closeGap (before ++ some first :: (elements.map some ++ spare)) before.length elements.length =
        some (before ++ elements.map some ++ last :: spare, destroyed) ∧
      ∀ element ∈ destroyed, element = first ∨ ∃ source, element = Movable.residue source := by
  induction elements generalizing before first with
  | nil => exact ⟨some first, [], by simp [closeGap], by simp⟩
  | cons next rest ih =>
    obtain ⟨last, destroyed, closed, moved⟩ := ih (before ++ [some next]) (Movable.residue next)
    have opened : ((before ++ some first :: some next :: (rest.map some ++ spare)).set before.length
        (some next)).set (before.length + 1) (some (Movable.residue next)) =
        before ++ [some next] ++ some (Movable.residue next) :: (rest.map some ++ spare) := by
      simp
    refine ⟨last, first :: destroyed, ?_, ?_⟩
    · have here : object (before ++ some first :: some next :: (rest.map some ++ spare))
          before.length = some first := by simp [object]
      have there : object (before ++ some first :: some next :: (rest.map some ++ spare))
          (before.length + 1) = some next := by simp [object]
      rw [List.length_append, List.length_singleton] at closed
      simp only [List.map_cons, List.cons_append, List.length_cons, closeGap, here, there, opened,
        closed, Option.bind_eq_bind, Option.bind_some]
      simp
    · intro element member
      rcases List.mem_cons.mp member with rfl | later
      · exact .inl rfl
      · rcases moved element later with rfl | residue
        · exact .inr ⟨next, rfl⟩
        · exact .inr residue

theorem Holds.popFront (holds : vector.Holds (first :: elements)) :
    ∃ after destroyed, vector.popFront = some (after, destroyed) ∧ after.Holds elements ∧
      ∀ element ∈ destroyed, element = first ∨ ∃ source, element = Movable.residue source := by
  obtain ⟨spare, stored⟩ := holds.slots
  obtain ⟨last, destroyed, closed, moved⟩ := closeGap_spec [] first elements spare
  refine ⟨{ slots := elements.map some ++ last :: spare, count := elements.length }, destroyed,
    ?_, ⟨⟨_, rfl⟩, rfl⟩, moved⟩
  have slots : vector.slots = some first :: (elements.map some ++ spare) := by simp [← stored]
  simp only [List.nil_append, List.length_nil] at closed
  simp [Vector.popFront, remove, holds.count, slots, closed]

end

end Vector

end FlapjackOS
