import FlapjackOS.Common.RingBuffers
import FlapjackOS.Machine.Lifetime

/-! The lifetimes of the elements of a `RingBuffer`: what its operations construct, move from and
destroy in the slots of `buffer_`. Parameters and temporaries live elsewhere and are left out. -/

namespace FlapjackOS.RingBuffer

open Carousel CircularIndex Lifetime Runs

inductive Operation (α : Type) where
  | pushBack (value : α)
  | pushFront (value : α)
  | popBack
  | popFront
  | insert (index : Int) (value : α)
  | remove (index : Int)
  | clear
  /-- The buffer is copied from, in the loop of a copy. -/
  | copied (i : Nat)
  /-- The buffer is moved from, in the loop of a move. -/
  | moved (i : Nat)
  deriving DecidableEq, Repr

variable {α : Type} {capacity : Nat} {ring next other : RingBuffer α capacity} {elements others : List α}
  {value : α} {operation : Operation α}

def step [Movable α] (ring : RingBuffer α capacity) : Operation α → Option (RingBuffer α capacity)
  | .pushBack value => some (ring.pushBack value).1
  | .pushFront value => some (ring.pushFront value).1
  | .popBack => ring.popBack
  | .popFront => ring.popFront
  | .insert index value => (ring.insert index value).map Prod.fst
  | .remove index => ring.remove index
  | .clear => ring.clear
  | .copied i => if i < ring.size then some ring else none
  | .moved i => if i < ring.size then ring.modifyAt i (fun value => some (Movable.residue value)) else none

section
variable (ring : RingBuffer α capacity)

/-- The slot that `index_at` finds. -/
def slotAt (i : Nat) : CircularIndex capacity := increment^[i] ring.frontPos

def pushBackEvents : List (Event (CircularIndex capacity)) :=
  if ring.full then []
  else [.construct (if !ring.empty then increment ring.backPos else ring.backPos)]

def pushFrontEvents : List (Event (CircularIndex capacity)) :=
  if ring.full then []
  else [.construct (if !ring.empty then decrement ring.frontPos else ring.frontPos)]

def insertEvents (index : Int) : List (Event (CircularIndex capacity)) :=
  if ring.full then []
  else if index = 0 then ring.pushFrontEvents
  else if index = ring.size then ring.pushBackEvents
  else moveUp ring.slotAt index.toNat ring.count ++ [.construct (ring.slotAt index.toNat)]

def removeEvents (index : Int) : List (Event (CircularIndex capacity)) :=
  if index = 0 then [.destroy ring.frontPos]
  else if index = ring.size - 1 then [.destroy ring.backPos]
  else moveDown ring.slotAt index.toNat (ring.count - 1 - index.toNat)

/-- The loop of `clear`. -/
def clearEvents (ring : RingBuffer α capacity) : Nat → List (Event (CircularIndex capacity))
  | 0 => []
  | rounds + 1 => .destroy ring.frontPos :: ring.popFront.elim [] fun ring => ring.clearEvents rounds

def events : Operation α → List (Event (CircularIndex capacity))
  | .pushBack _ => ring.pushBackEvents
  | .pushFront _ => ring.pushFrontEvents
  | .popBack => [.destroy ring.backPos]
  | .popFront => [.destroy ring.frontPos]
  | .insert index _ => ring.insertEvents index
  | .remove index => ring.removeEvents index
  | .clear => ring.clearEvents ring.count
  | .copied i | .moved i => [.use (ring.slotAt i)]

/-- The `count_` slots from `front_pos_` on. -/
def inUse : Set (CircularIndex capacity) := row ring.slotAt ring.count

/-- Nothing is removed from the middle. -/
def AtEnds : Operation α → Prop
  | .remove index => index = 0 ∨ index = ring.size - 1
  | _ => True

end

instance (ring : RingBuffer α capacity) : ∀ operation, Decidable (ring.AtEnds operation)
  | .remove _ => inferInstanceAs (Decidable (_ ∨ _))
  | .pushBack _ | .pushFront _ | .popBack | .popFront | .insert _ _ | .clear | .copied _ | .moved _ => .isTrue trivial

theorem slotAt_eq (ring : RingBuffer α capacity) : ring.slotAt = around ring.frontPos :=
  funext fun i => iterate_increment ring.frontPos i

theorem inUse_eq (ring : RingBuffer α capacity) : ring.inUse = row (around ring.frontPos) ring.count := by
  rw [inUse, slotAt_eq]

theorem around_apart (start : CircularIndex capacity) (room : n < capacity) :
    Set.InjOn (around start) (Set.Iic n) :=
  fun _ first _ second same =>
    around_injective (Nat.lt_of_le_of_lt first room) (Nat.lt_of_le_of_lt second room) same

theorem slotAt_apart (ring : RingBuffer α capacity) (room : n < capacity) : Set.InjOn ring.slotAt (Set.Iic n) := by
  rw [slotAt_eq]
  exact around_apart ring.frontPos room

theorem around_next (start : CircularIndex capacity) : (fun i => around start (i + 1)) = around (around start 1) := by
  funext i
  rw [around_around, Nat.add_comm]

theorem Holds.pushBack_replays (holds : ring.Holds elements) (value : α) :
    Replays ring.inUse ring.pushBackEvents (ring.pushBack value).1.inUse := by
  by_cases full : ring.full = true
  · rw [pushBackEvents, if_pos full, pushBack_full full]
    exact .nil
  · have room : ring.count < capacity := by simpa [RingBuffer.full] using full
    rw [pushBackEvents, if_neg full, RingBuffer.pushBack, if_neg full, holds.behind, ← holds.count, inUse_eq, inUse_eq]
    exact replays_pushLast (around_apart ring.frontPos room)

theorem pushFront_replays (ring : RingBuffer α capacity) (value : α) :
    Replays ring.inUse ring.pushFrontEvents (ring.pushFront value).1.inUse := by
  by_cases full : ring.full = true
  · rw [pushFrontEvents, if_pos full, pushFront_full full]
    exact .nil
  · have room : ring.count < capacity := by simpa [RingBuffer.full] using full
    rw [pushFrontEvents, if_neg full, RingBuffer.pushFront, if_neg full, inUse_eq, inUse_eq]
    by_cases vacant : ring.empty = true
    · have none : ring.count = 0 := by simpa [RingBuffer.empty] using vacant
      have pushed := replays_pushLast (around_apart ring.frontPos (none ▸ room))
      rw [around_zero] at pushed
      simpa [vacant, none] using pushed
    · have back : around (decrement ring.frontPos) 1 = ring.frontPos := by rw [decrement_eq, around_back]
      have pushed := replays_pushFirst (around_apart (decrement ring.frontPos) room)
      rw [around_next, back, around_zero] at pushed
      simpa [vacant] using pushed

theorem Holds.popFront_replays (holds : ring.Holds (value :: elements)) (popped : ring.popFront = some next) :
    Replays ring.inUse [.destroy ring.frontPos] next.inUse := by
  obtain ⟨-, popped⟩ := Option.ite_none_left_eq_some.mp popped
  obtain ⟨_, -, same⟩ := Option.bind_eq_some_iff.mp popped
  cases same
  have taken := replays_popFirst (around_apart ring.frontPos holds.fits)
  rw [around_next, around_zero] at taken
  simp only [inUse_eq, holds.count, List.length_cons, Nat.add_sub_cancel]
  cases elements with
  | nil => simpa [row_zero] using taken
  | cons first rest =>
    have several : ring.size ≠ 1 := by simp [holds.size]
    rwa [if_pos several]

theorem Holds.popBack_replays (holds : ring.Holds (elements ++ [value])) (popped : ring.popBack = some next) :
    Replays ring.inUse [.destroy ring.backPos] next.inUse := by
  obtain ⟨-, popped⟩ := Option.ite_none_left_eq_some.mp popped
  obtain ⟨_, -, same⟩ := Option.bind_eq_some_iff.mp popped
  cases same
  have counted : ring.count = elements.length + 1 := by simpa using holds.count
  have back : ring.backPos = around ring.frontPos elements.length := by simpa using holds.back
  have room : elements.length < capacity := Nat.lt_of_succ_le (by simpa using holds.fits)
  simp only [inUse_eq, counted, Nat.add_sub_cancel, back]
  exact replays_popLast (around_apart ring.frontPos room)

theorem Holds.clear_replays (holds : ring.Holds elements) : Replays ring.inUse (ring.clearEvents ring.count) ∅ := by
  rw [holds.count]
  induction elements generalizing ring with
  | nil =>
    rw [inUse, holds.count, List.length_nil, row_zero]
    exact .nil
  | cons first rest ih =>
    obtain ⟨popped, pops, result⟩ := holds.popFront
    rw [List.length_cons, clearEvents, pops, Option.elim_some, ← List.singleton_append]
    exact (holds.popFront_replays pops).append (ih result)

theorem Holds.insert_replays (holds : ring.Holds elements) {said : Bool} {index : Int}
    (inserted : ring.insert index value = some (next, said)) :
    Replays ring.inUse (ring.insertEvents index) next.inUse := by
  obtain ⟨inside, inserted⟩ := Option.ite_none_right_eq_some.mp inserted
  rw [insertEvents]
  split_ifs at inserted ⊢ with full first last
  · cases inserted
    exact .nil
  · rw [← (Prod.mk.inj (Option.some.inj inserted)).1]
    exact pushFront_replays ring value
  · rw [← (Prod.mk.inj (Option.some.inj inserted)).1]
    exact holds.pushBack_replays value
  · have room : ring.count < capacity := by simpa [RingBuffer.full] using full
    obtain ⟨buffer, -, inserted⟩ := Option.bind_eq_some_iff.mp inserted
    obtain ⟨slot, -, same⟩ := Option.bind_eq_some_iff.mp inserted
    cases same
    exact replays_insert (ring.slotAt_apart room) (Int.toNat_le.mpr inside.2)

theorem use_replays (bound : i < ring.size) : Replays ring.inUse [.use (ring.slotAt i)] ring.inUse :=
  replays_use (place_mem_row bound)

section
variable [Movable α] {index : Int}

theorem Holds.remove_replays (holds : ring.Holds elements) (removed : ring.remove index = some next)
    (ends : index = 0 ∨ index = ring.size - 1) : Replays ring.inUse (ring.removeEvents index) next.inUse := by
  obtain ⟨occupied, removed⟩ := Option.ite_none_left_eq_some.mp removed
  obtain ⟨-, removed⟩ := Option.ite_none_right_eq_some.mp removed
  rw [holds.empty_iff] at occupied
  rw [removeEvents]
  by_cases first : index = 0
  · rw [if_pos first] at removed ⊢
    obtain ⟨value, rest, rfl⟩ := List.exists_cons_of_ne_nil occupied
    exact holds.popFront_replays removed
  · rw [if_neg first, if_pos (ends.resolve_left first)] at removed ⊢
    obtain ⟨rest, value, rfl⟩ := (List.eq_nil_or_concat elements).resolve_left occupied
    rw [List.concat_eq_append] at holds
    exact holds.popBack_replays removed

/-- In the middle every slot keeps an object, but the last one is no longer in use. -/
theorem Holds.remove_middle (holds : ring.Holds elements) (removed : ring.remove index = some next)
    (middle : ¬ (index = 0 ∨ index = ring.size - 1)) :
    Replays ring.inUse (ring.removeEvents index) ring.inUse ∧ ∃ slot ∈ ring.inUse, slot ∉ next.inUse := by
  obtain ⟨notFirst, notLast⟩ := not_or.mp middle
  obtain ⟨-, removed⟩ := Option.ite_none_left_eq_some.mp removed
  obtain ⟨inside, removed⟩ := Option.ite_none_right_eq_some.mp removed
  rw [if_neg notFirst, if_neg notLast] at removed
  obtain ⟨buffer, -, same⟩ := Option.bind_eq_some_iff.mp removed
  cases same
  have fits : ring.count ≤ capacity := holds.count ▸ holds.fits
  have counted : ring.size = ring.count := rfl
  obtain ⟨n, several⟩ : ∃ n, ring.count = n + 1 := ⟨ring.count - 1, by omega⟩
  have apart : Set.InjOn ring.slotAt (Set.Iic n) := ring.slotAt_apart (by omega)
  rw [removeEvents, if_neg notFirst, if_neg notLast, inUse, inUse, several, Nat.add_sub_cancel]
  exact ⟨moveDown_replays apart (by omega), ring.slotAt n, place_mem_row (Nat.lt_succ_self n),
    place_notMem_row apart⟩

end

theorem holds_of_rel {result : Option (RingBuffer α capacity)} {list : Option (List α)}
    (related : Option.Rel Holds result list) (found : result = some next) : ∃ after, next.Holds after := by
  rw [found] at related
  obtain ⟨after, -, holds⟩ := Simulation.rel_some_left related
  exact ⟨after, holds⟩

variable [Movable α]

theorem Holds.step [NeZero capacity] (holds : ring.Holds elements) (stepped : ring.step operation = some next) :
    ∃ after, next.Holds after := by
  cases operation with
  | pushBack value =>
    have pushed := follows_boundedList.pushBack holds value
    exact holds_of_rel (Simulation.rel_map pushed fun _ _ both => both.1) stepped
  | pushFront value =>
    have pushed := follows_boundedList.pushFront holds value
    exact holds_of_rel (Simulation.rel_map pushed fun _ _ both => both.1) stepped
  | popBack => exact holds_of_rel (follows_boundedList.popBack holds) stepped
  | popFront => exact holds_of_rel (follows_boundedList.popFront holds) stepped
  | insert index value =>
    have inserted := follows_boundedList.insert holds index value
    exact holds_of_rel (Simulation.rel_map inserted fun _ _ both => both.1) stepped
  | remove index => exact holds_of_rel (follows_boundedList.remove holds index) stepped
  | clear => exact holds_of_rel (follows_boundedList.clear holds) stepped
  | copied i =>
    obtain ⟨-, same⟩ := Option.ite_none_right_eq_some.mp stepped
    cases same
    exact ⟨elements, holds⟩
  | moved i =>
    obtain ⟨bound, changed⟩ := Option.ite_none_right_eq_some.mp stepped
    rw [holds.size] at bound
    have inside : i % capacity = i := Nat.mod_eq_of_lt (Nat.lt_of_lt_of_le bound holds.fits)
    obtain ⟨after, changes, held⟩ := @Holds.modifyAt _ _ _ _ _ holds _ (Movable.residue elements[i])
      (Nat.le_of_lt bound) (by rw [inside, List.getElem?_eq_getElem bound])
      (fun value => some (Movable.residue value)) rfl
    cases changes.symm.trans changed
    exact ⟨_, held⟩

theorem Holds.step_replays (holds : ring.Holds elements) (stepped : ring.step operation = some next)
    (ends : ring.AtEnds operation) : Replays ring.inUse (ring.events operation) next.inUse := by
  cases operation with
  | pushBack value =>
    cases stepped
    exact holds.pushBack_replays value
  | pushFront value =>
    cases stepped
    exact pushFront_replays ring value
  | popBack =>
    rcases List.eq_nil_or_concat elements with rfl | ⟨rest, value, rfl⟩
    · simp [RingBuffer.step, RingBuffer.popBack, holds.empty_iff.mpr rfl] at stepped
    · rw [List.concat_eq_append] at holds
      exact holds.popBack_replays stepped
  | popFront =>
    cases elements with
    | nil => simp [RingBuffer.step, RingBuffer.popFront, holds.empty_iff.mpr rfl] at stepped
    | cons value rest => exact holds.popFront_replays stepped
  | insert index value =>
    obtain ⟨⟨after, said⟩, inserted, rfl⟩ := Option.map_eq_some_iff.mp stepped
    exact holds.insert_replays inserted
  | remove index => exact holds.remove_replays stepped ends
  | clear =>
    obtain ⟨cleared, clears, emptied⟩ := holds.clear
    cases clears.symm.trans stepped
    have nothing : next.inUse = ∅ := by rw [inUse, emptied.count, List.length_nil, row_zero]
    rw [nothing]
    exact holds.clear_replays
  | copied i =>
    obtain ⟨bound, same⟩ := Option.ite_none_right_eq_some.mp stepped
    cases same
    exact use_replays bound
  | moved i =>
    obtain ⟨bound, changed⟩ := Option.ite_none_right_eq_some.mp stepped
    obtain ⟨cursor, -, changed⟩ := Option.bind_eq_some_iff.mp changed
    obtain ⟨value, -, same⟩ := Option.bind_eq_some_iff.mp changed
    cases same
    exact use_replays bound

/-- For a sequence of operations whose assertions hold: no object is constructed over another or
used where there is none, exactly the slots in use hold one after every operation, and all of them
have been destroyed exactly once whenever the buffer is empty, if and only if nothing is removed from
the middle. -/
theorem lifetimes_kept_iff [NeZero capacity] (operations : List (Operation α))
    (performed : (run step (nil : RingBuffer α capacity) operations).isSome) :
    Always (track step events) (Clean inUse) { state := (nil : RingBuffer α capacity), ledger := .empty } operations ↔
      Legal step AtEnds (nil : RingBuffer α capacity) operations := by
  have vacant : (nil : RingBuffer α capacity).inUse = ∅ := row_zero
  have keeps (ring : RingBuffer α capacity) (operation : Operation α) (next : RingBuffer α capacity)
      (held : ∃ elements, ring.Holds elements) (stepped : ring.step operation = some next) :
      ∃ elements, next.Holds elements := by
    obtain ⟨elements, holds⟩ := held
    exact holds.step stepped
  refine always_clean_iff keeps (fun ring operation next held stepped ends => ?_)
    (fun ring operation next held stepped middle ledger after occupies replayed => ?_)
    performed ⟨[], holds_nil⟩ (vacant ▸ occupies_empty) sound_empty
  · obtain ⟨elements, holds⟩ := held
    exact holds.step_replays stepped ends
  · obtain ⟨elements, holds⟩ := held
    cases operation with
    | remove index =>
      obtain ⟨replays, slot, used, unused⟩ := holds.remove_middle stepped middle
      obtain ⟨final, same, filled⟩ := replays ledger occupies
      cases same.symm.trans replayed
      exact fun result => unused ((result slot).mp ((filled slot).mpr used))
    | pushBack _ | pushFront _ | popBack | popFront | insert _ _ | clear | copied _ | moved _ =>
      exact absurd trivial middle

/-- Three elements, of which the first and the last are removed. -/
def sampleOperations : List (Operation (UniquePointer Nat)) :=
  [.pushBack (.ofPointer (some 1)), .pushBack (.ofPointer (some 2)), .insert 1 (.ofPointer (some 3)),
    .remove 2, .moved 0, .remove 0, .clear]

theorem lifetimes_kept_sample :
    Always (track step events) (Clean inUse)
      { state := (nil : RingBuffer (UniquePointer Nat) 3), ledger := .empty } sampleOperations :=
  (lifetimes_kept_iff sampleOperations (by decide)).mpr (by decide)

/-- Three elements, of which the middle one is removed. -/
def middleRemoved : List (Operation (UniquePointer Nat)) :=
  [.pushBack (.ofPointer (some 1)), .pushBack (.ofPointer (some 2)), .pushBack (.ofPointer (some 3)), .remove 1]

/-- The slot behind the two elements that are left holds an object. The next element is constructed
over it, and the destructor leaves it: the object with the number 2 is not destroyed. -/
theorem middle_removal_leaks :
    ((run (track step events) { state := (nil : RingBuffer (UniquePointer Nat) 4), ledger := .empty }
      middleRemoved).map fun tracked =>
        (tracked.state.size, (List.finRange 4).map fun slot => (tracked.ledger.live slot).isSome)) =
      some (2, [true, true, true, false]) ∧
    (run (track step events) { state := (nil : RingBuffer (UniquePointer Nat) 4), ledger := .empty }
      (middleRemoved ++ [.pushBack (.ofPointer (some 4))])).isNone ∧
    ((run (track step events) { state := (nil : RingBuffer (UniquePointer Nat) 4), ledger := .empty }
      (middleRemoved ++ [.clear])).map fun tracked => (tracked.ledger.made, tracked.ledger.destroyed)) =
      some (4, [3, 0, 1]) := by
  decide

end FlapjackOS.RingBuffer
