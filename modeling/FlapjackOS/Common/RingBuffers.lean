import FlapjackOS.Common.RingBuffer
import FlapjackOS.Machine.Deque

namespace FlapjackOS.RingBuffer

open Simulation Deque

variable {α : Type} {capacity : Nat} {ring other : RingBuffer α capacity} {elements others : List α}

def front? (ring : RingBuffer α capacity) : Option α :=
  if ring.empty then none else ring.buffer ring.frontPos

def back? (ring : RingBuffer α capacity) : Option α :=
  if ring.empty then none else ring.buffer ring.backPos

/-- The loop of `operator==`, at the `i`th elements with so many to go. -/
def equalLoop [DecidableEq α] (ring other : RingBuffer α capacity) (i : Nat) : Nat → Option Bool
  | 0 => some true
  | rest + 1 => do
    let theirs ← other.at? i
    let own ← ring.at? i
    if theirs ≠ own then return false
    ring.equalLoop other (i + 1) rest

/-- `operator==` of two different buffers. -/
def equal [DecidableEq α] (ring other : RingBuffer α capacity) : Option Bool :=
  if other.size ≠ ring.size then some false else ring.equalLoop other 0 ring.size

def copyConstruct [NeZero capacity] (other : RingBuffer α capacity) : Option (RingBuffer α capacity) :=
  nil.pushCopies other 0 other.size

section
variable [Movable α]

/-- The loop that pushes the elements of another buffer by moving them, from the `i`th on. -/
def pushMoves (ring other : RingBuffer α capacity) (i : Nat) :
    Nat → Option (RingBuffer α capacity × RingBuffer α capacity)
  | 0 => some (ring, other)
  | rest + 1 => do
    let value ← other.at? i
    let other ← other.modifyAt i (fun value => some (Movable.residue value))
    (ring.pushBack value).1.pushMoves other (i + 1) rest

/-- The elements of another buffer are moved to the back, and what is left of them is cleared. -/
def takeOver (ring other : RingBuffer α capacity) : Option (RingBuffer α capacity × RingBuffer α capacity) := do
  let (ring, other) ← ring.pushMoves other 0 other.size
  let other ← other.clear
  return (ring, other)

def moveConstruct [NeZero capacity] (other : RingBuffer α capacity) :
    Option (RingBuffer α capacity × RingBuffer α capacity) := nil.takeOver other

/-- The move assignment from another buffer. -/
def moveAssign (ring other : RingBuffer α capacity) : Option (RingBuffer α capacity × RingBuffer α capacity) := do
  let ring ← ring.clear
  ring.takeOver other

/-- The operations of `RingBuffer`. -/
def deque (α : Type) (capacity : Nat) [Movable α] [NeZero capacity] : Deque α (RingBuffer α capacity) where
  construct := nil
  destroy ring := ring.clear.map fun _ => ()
  pushBack ring value := some (ring.pushBack value)
  pushFront ring value := some (ring.pushFront value)
  popBack := popBack
  popFront := popFront
  insert := insert
  remove := remove
  clear := clear
  copyConstruct := copyConstruct
  moveConstruct := moveConstruct
  copyAssign := assign
  moveAssign := moveAssign

end

theorem Holds.front (holds : ring.Holds elements) : ring.front? = elements.head? := by
  cases elements with
  | nil => rw [front?, if_pos (holds.empty_iff.mpr rfl), List.head?_nil]
  | cons first rest =>
    rw [front?, if_neg (by simp [holds.occupied]), List.head?_cons]
    exact holds.reads.head

theorem Holds.last (holds : ring.Holds elements) : ring.back? = elements.getLast? := by
  rcases List.eq_nil_or_concat elements with rfl | ⟨rest, value, rfl⟩
  · rw [back?, if_pos (holds.empty_iff.mpr rfl), List.getLast?_nil]
  · have occupied : ¬ ring.empty = true := by
      rw [holds.empty_iff]
      simp
    have place : ring.backPos = Carousel.around ring.frontPos rest.length := by simpa using holds.back
    rw [back?, if_neg occupied, place, List.concat_eq_append, List.getLast?_concat]
    exact holds.reads rest.length (some value) (by simp)

theorem Holds.equalLoop [DecidableEq α] (holds : ring.Holds (done ++ elements))
    (compared : other.Holds (before ++ others))
    (level : before.length = done.length) (same : others.length = elements.length) :
    ring.equalLoop other done.length elements.length = some (decide (elements = others)) := by
  induction elements generalizing done before others with
  | nil =>
    rw [List.length_nil] at same
    rw [List.eq_nil_of_length_eq_zero same]
    rfl
  | cons value elements ih =>
    cases others with
    | nil => cases same
    | cons theirs others =>
      have own := holds.at_append
      have read := compared.at_append
      rw [level] at read
      rw [List.length_cons, RingBuffer.equalLoop, own, read]
      by_cases equal : theirs = value
      · rw [List.append_cons] at holds compared
        have later := ih holds compared (by simp [level]) (Nat.succ.inj same)
        rw [List.length_append, List.length_singleton] at later
        simp [equal, later]
      · simp [equal, Ne.symm equal]

theorem Holds.equal [DecidableEq α] (holds : ring.Holds elements) (compared : other.Holds others) :
    ring.equal other = some (decide (elements = others)) := by
  rw [RingBuffer.equal, holds.size, compared.size]
  by_cases same : others.length = elements.length
  · rw [if_neg (not_not.mpr same)]
    exact @Holds.equalLoop α capacity ring other elements others [] [] _ holds compared rfl same
  · rw [if_pos same]
    have different : elements ≠ others := fun equal => same (by rw [equal])
    simp [different]

section
variable [Movable α]

/-- The loop appends the elements that are left, and leaves what a move leaves of them. -/
theorem Holds.pushMoves {done rest : List α} (holds : ring.Holds elements) (moved : other.Holds (done ++ rest))
    (fits : elements.length + rest.length ≤ capacity) :
    ∃ next left, ring.pushMoves other done.length rest.length = some (next, left) ∧
      next.Holds (elements ++ rest) ∧ left.Holds (done ++ rest.map Movable.residue) := by
  induction rest generalizing ring other elements done with
  | nil => exact ⟨ring, other, rfl, by simpa using holds, by simpa using moved⟩
  | cons value rest ih =>
    have read : other.at? done.length = some value := moved.at_append
    have inside : done.length < capacity := by
      have bound := moved.fits
      simp only [List.length_append, List.length_cons] at bound
      omega
    have here : (done ++ value :: rest)[done.length % capacity]? = some value := by
      rw [Nat.mod_eq_of_lt inside]
      simp
    obtain ⟨left, changes, kept⟩ := @Holds.modifyAt _ _ _ _ _ moved _ (Movable.residue value) (by simp) here
      (fun value => some (Movable.residue value)) rfl
    rw [Nat.mod_eq_of_lt inside, List.set_append_right _ _ (Nat.le_refl _), Nat.sub_self, List.set_cons_zero,
      List.append_cons] at kept
    simp only [List.length_cons] at fits
    obtain ⟨pushed, pushes, result⟩ := holds.pushBack (by omega) value
    obtain ⟨next, final, moves, result, remains⟩ := ih result kept (by simp; omega)
    refine ⟨next, final, ?_, by simpa using result, by simpa using remains⟩
    rw [List.length_append, List.length_singleton] at moves
    simp [RingBuffer.pushMoves, read, changes, pushes, moves]

theorem Holds.takeOver (holds : ring.Holds []) (moved : other.Holds others) :
    ∃ next left, ring.takeOver other = some (next, left) ∧ next.Holds others ∧ left.Holds [] := by
  obtain ⟨next, final, moves, result, remains⟩ :=
    holds.pushMoves (List.nil_append others ▸ moved) (by simpa using moved.fits)
  obtain ⟨left, clears, cleared⟩ := remains.clear
  refine ⟨next, left, ?_, result, cleared⟩
  rw [RingBuffer.takeOver, moved.size]
  rw [List.length_nil] at moves
  simp [moves, clears]

end

theorem Holds.full_of_not_lt (holds : ring.Holds elements) (crowded : ¬ elements.length < capacity) :
    ring.full = true := by
  have fits := holds.fits
  rw [holds.full_iff]
  omega

theorem pushBack_full (full : ring.full = true) (value : α) : ring.pushBack value = (ring, false) := if_pos full

theorem pushFront_full (full : ring.full = true) (value : α) : ring.pushFront value = (ring, false) := if_pos full

/-- What can be seen of a buffer is what can be seen of the list. -/
structure Shows (ring : RingBuffer α capacity) (list : List α) : Prop where
  bounded : list.length ≤ capacity
  size : ring.size = list.length
  elements : ∀ i, i < list.length → ring.at? i = list[i]?
  front : ring.front? = list.head?
  back : ring.back? = list.getLast?
  /-- Insertions into a full buffer leave it exactly as it is. -/
  full : list.length = capacity → ∀ value, ring.pushBack value = (ring, false) ∧
    ring.pushFront value = (ring, false) ∧
    ∀ index : Int, 0 ≤ index → index ≤ list.length → ring.insert index value = some (ring, false)

theorem Holds.shows (holds : ring.Holds elements) : ring.Shows elements where
  bounded := holds.fits
  size := holds.size
  elements i inside := by rw [holds.at_of_lt inside, List.getElem?_eq_getElem inside]
  front := holds.front
  back := holds.last
  full crowded value := by
    have full : ring.full = true := holds.full_iff.mpr crowded
    refine ⟨pushBack_full full value, pushFront_full full value, fun index low high => ?_⟩
    exact insert_full full (holds.size ▸ ⟨low, high⟩) value

section
variable {Name : Type} [Movable α] [NeZero capacity]

/-- Every operation of `RingBuffer` follows that of the bounded list. -/
theorem follows_boundedList : Follows Holds (deque α capacity) (boundedList α capacity) where
  construct := holds_nil
  destroy holds := by
    obtain ⟨cleared, clears, -⟩ := holds.clear
    simp only [deque, clears, Option.map_some, boundedList]
    exact .some trivial
  pushBack {ring elements} holds value := by
    simp only [deque, boundedList, bounded]
    by_cases room : elements.length < capacity
    · obtain ⟨next, pushed, held⟩ := holds.pushBack room value
      rw [pushed, if_pos room]
      exact .some ⟨held, rfl⟩
    · rw [pushBack_full (holds.full_of_not_lt room), if_neg room]
      exact .some ⟨holds, rfl⟩
  pushFront {ring elements} holds value := by
    simp only [deque, boundedList, bounded]
    by_cases room : elements.length < capacity
    · obtain ⟨next, pushed, held⟩ := holds.pushFront room value
      rw [pushed, if_pos room]
      exact .some ⟨held, rfl⟩
    · rw [pushFront_full (holds.full_of_not_lt room), if_neg room]
      exact .some ⟨holds, rfl⟩
  popBack {ring elements} holds := by
    rcases List.eq_nil_or_concat elements with rfl | ⟨rest, value, rfl⟩
    · simp [deque, boundedList, popBack, holds.empty_iff.mpr rfl]
    · rw [List.concat_eq_append] at holds ⊢
      obtain ⟨next, popped, held⟩ := holds.popBack
      simpa [deque, boundedList, popped] using held
  popFront {ring elements} holds := by
    cases elements with
    | nil => simp [deque, boundedList, popFront, holds.empty_iff.mpr rfl]
    | cons value rest =>
      obtain ⟨next, popped, held⟩ := holds.popFront
      simpa [deque, boundedList, popped] using held
  insert {ring elements} holds index value := by
    simp only [deque, boundedList]
    by_cases inside : 0 ≤ index ∧ index ≤ elements.length
    · rw [if_pos inside]
      obtain ⟨index, rfl⟩ := Int.eq_ofNat_of_zero_le inside.1
      have bound : index ≤ elements.length := Int.ofNat_le.mp inside.2
      by_cases room : elements.length < capacity
      · obtain ⟨next, inserted, held⟩ := holds.insert room bound value
        rw [inserted, bounded, if_pos room]
        exact .some ⟨held, rfl⟩
      · rw [insert_full (holds.full_of_not_lt room) (holds.size ▸ inside), bounded, if_neg room]
        exact .some ⟨holds, rfl⟩
    · rw [if_neg inside, insert_outside (holds.size ▸ inside)]
      exact .none
  remove {ring elements} holds index := by
    simp only [deque, boundedList]
    by_cases inside : 0 ≤ index ∧ index < elements.length
    · rw [if_pos inside]
      obtain ⟨index, rfl⟩ := Int.eq_ofNat_of_zero_le inside.1
      have bound : index < elements.length := Int.ofNat_lt.mp inside.2
      obtain ⟨next, removed, held⟩ := holds.remove bound
      rw [removed]
      exact .some held
    · have outside : ¬ (0 ≤ index ∧ index < ring.size) := holds.size ▸ inside
      rw [if_neg inside, RingBuffer.remove, if_neg outside, ite_self]
      exact .none
  clear holds := by
    obtain ⟨cleared, clears, held⟩ := holds.clear
    simp only [deque, clears, boundedList]
    exact .some held
  copyConstruct {other others} holds := by
    obtain ⟨next, copies, held⟩ :=
      holds_nil.pushCopies (List.nil_append others ▸ holds) (by simpa using holds.fits)
    simp only [deque, copyConstruct, boundedList, holds.size]
    rw [List.length_nil] at copies
    rw [copies]
    exact .some held
  moveConstruct holds := by
    obtain ⟨next, left, moves, held, emptied⟩ := holds_nil.takeOver holds
    simp only [deque, moveConstruct, moves, boundedList]
    exact .some ⟨held, emptied⟩
  copyAssign holds copied := by
    obtain ⟨next, copies, held⟩ := holds.assign copied
    simp only [deque, copies, boundedList]
    exact .some held
  moveAssign holds moved := by
    obtain ⟨cleared, clears, held⟩ := holds.clear
    obtain ⟨next, left, moves, held, emptied⟩ := held.takeOver moved
    simp only [deque, moveAssign, clears, Option.bind_eq_bind, Option.bind_some, moves, boundedList]
    exact .some ⟨held, emptied⟩

/-- `operator==` of the buffers with these names. -/
def equalNamed [DecidableEq Name] [DecidableEq α] (world : World Name (RingBuffer α capacity)) (id other : Name) :
    Option Bool := do
  let ring ← world.queues id
  let compared ← world.queues other
  if id = other then return true
  ring.equal compared

/-- The buffers show the lists, the insertions have said the same, and `operator==` compares
the lists. -/
structure Matches [DecidableEq Name] [DecidableEq α] (world : World Name (RingBuffer α capacity))
    (model : World Name (List α)) : Prop where
  queues : ∀ id, Option.Rel Shows (world.queues id) (model.queues id)
  results : world.results = model.results
  equal : ∀ id other list compared, model.queues id = some list → model.queues other = some compared →
    equalNamed world id other = some (decide (list = compared))

/-- After every sequence of operations the buffers are seen as the lists that the same operations
make. A sequence that is not allowed on the lists fails on the buffers as well. -/
theorem ring_buffers_refine_lists [DecidableEq Name] [DecidableEq α] (actions : List (Action Name α)) :
    Option.Rel Matches (Runs.run (Deque.step (deque α capacity)) World.empty actions)
      (Runs.run (Deque.step (boundedList α capacity)) World.empty actions) := by
  refine rel_mono (follows_boundedList.run actions) fun world model agree => ?_
  refine ⟨fun id => rel_mono (agree.queues id) fun ring list holds => holds.shows, agree.results, ?_⟩
  intro id other list compared found second
  have first := agree.queues id
  rw [found] at first
  obtain ⟨ring, named, holds⟩ := rel_some_right first
  have there := agree.queues other
  rw [second] at there
  obtain ⟨another, alike, held⟩ := rel_some_right there
  rw [equalNamed, named, alike]
  simp only [Option.bind_eq_bind, Option.bind_some]
  by_cases itself : id = other
  · subst itself
    rw [found, Option.some.injEq] at second
    simp [second]
  · rw [if_neg itself]
    exact holds.equal held

/-- Two buffers of two slots. -/
def sampleActions : List (Action Bool (UniquePointer Nat)) :=
  [.construct false, .pushBack false (.ofPointer (some 1)), .insert false 0 (.ofPointer (some 2)),
    .pushFront false (.ofPointer (some 3)), .copyConstruct true false, .remove true 0, .moveAssign false true]

theorem ring_buffers_refine_lists_sample :
    Option.Rel Matches (Runs.run (Deque.step (deque (UniquePointer Nat) 2)) World.empty sampleActions)
      (Runs.run (Deque.step (boundedList (UniquePointer Nat) 2)) World.empty sampleActions) :=
  ring_buffers_refine_lists sampleActions

example : ((Runs.run (Deque.step (boundedList (UniquePointer Nat) 2)) World.empty sampleActions).map
    fun model => (model.queues false, model.queues true, model.results)) =
      some (some [.ofPointer (some 1)], some [], [false, true, true]) := by decide

end

end FlapjackOS.RingBuffer
