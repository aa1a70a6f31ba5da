import FlapjackOS.Common.UniquePointer
import FlapjackOS.Machine.Carousel
import FlapjackOS.Machine.Lists
import Mathlib.Data.List.Induction
import Mathlib.Logic.Function.Iterate

/-! `RingBuffer`, a double-ended queue in a fixed number of slots. `none` stands for a failed
assertion or for the use of a raw slot. -/

namespace FlapjackOS

open Function Carousel

/-- An index into the buffer, which wraps around at `CAPACITY`. -/
abbrev CircularIndex (capacity : Nat) : Type := Fin capacity

namespace CircularIndex

def increment (index : CircularIndex capacity) : CircularIndex capacity :=
  ⟨(index.val + 1) % capacity, Nat.mod_lt _ index.pos⟩

def decrement (index : CircularIndex capacity) : CircularIndex capacity :=
  if index.val = 0 then ⟨capacity - 1, Nat.sub_lt index.pos Nat.one_pos⟩
  else ⟨(index.val - 1) % capacity, Nat.mod_lt _ index.pos⟩

section
variable (index : CircularIndex capacity)
include index

theorem increment_eq : increment index = around index 1 := rfl

theorem decrement_eq : decrement index = around index (capacity - 1) := by
  have bound := index.isLt
  apply Fin.ext
  by_cases first : index.val = 0
  · simp [decrement, around, first, Nat.mod_eq_of_lt (show capacity - 1 < capacity by omega)]
  · have sum : index.val + (capacity - 1) = index.val - 1 + capacity := by omega
    simp [decrement, around, first, sum]

theorem iterate_increment (steps : Nat) : increment^[steps] index = around index steps := by
  induction steps with
  | zero => simp
  | succ steps ih => rw [iterate_succ_apply', ih, increment_eq, around_around]

theorem decrement_around_succ (steps : Nat) :
    decrement (around index (steps + 1)) = around index steps := by
  have positive := index.pos
  rw [decrement_eq, around_around, show steps + 1 + (capacity - 1) = capacity + steps by omega,
    ← around_around, around_size]

theorem around_decrement_succ (steps : Nat) :
    around (decrement index) (steps + 1) = around index steps := by
  rw [Nat.add_comm, ← around_around, decrement_eq, around_back]

end

end CircularIndex

/-- A raw slot of `buffer_` is `none`. -/
structure RingBuffer (α : Type) (capacity : Nat) where
  buffer : CircularIndex capacity → Option α
  frontPos : CircularIndex capacity
  backPos : CircularIndex capacity
  count : Nat

namespace RingBuffer

open CircularIndex

def nil [NeZero capacity] : RingBuffer α capacity :=
  { buffer := fun _ => none, frontPos := 0, backPos := 0, count := 0 }

section
variable (ring : RingBuffer α capacity)

def empty : Bool := ring.count == 0

def full : Bool := capacity ≤ ring.count

def size : Nat := ring.count

/-- The assertion also admits the index behind the last element. -/
def indexAt (index : Int) : Option (CircularIndex capacity) :=
  if 0 ≤ index ∧ index ≤ ring.count then some (increment^[index.toNat] ring.frontPos) else none

def at? (index : Int) : Option α := do
  let cursor ← ring.indexAt index
  ring.buffer cursor

/-- Change the element that `at` refers to. -/
def modifyAt (index : Int) (change : α → Option α) :
    Option (RingBuffer α capacity) := do
  let cursor ← ring.indexAt index
  let value ← ring.buffer cursor
  let changed ← change value
  return { ring with buffer := update ring.buffer cursor (some changed) }

def pushBack (value : α) : RingBuffer α capacity × Bool :=
  if ring.full then (ring, false)
  else
    let backPos := if !ring.empty then increment ring.backPos else ring.backPos
    ({ ring with buffer := update ring.buffer backPos (some value), backPos, count := ring.count + 1 }, true)

def pushFront (value : α) : RingBuffer α capacity × Bool :=
  if ring.full then (ring, false)
  else
    let frontPos := if !ring.empty then decrement ring.frontPos else ring.frontPos
    ({ ring with buffer := update ring.buffer frontPos (some value), frontPos, count := ring.count + 1 }, true)

def popBack : Option (RingBuffer α capacity) :=
  if ring.empty then none
  else do
    let _ ← ring.buffer ring.backPos
    return { ring with
      buffer := update ring.buffer ring.backPos none
      backPos := if ring.size ≠ 1 then decrement ring.backPos else ring.backPos
      count := ring.count - 1 }

def popFront : Option (RingBuffer α capacity) :=
  if ring.empty then none
  else do
    let _ ← ring.buffer ring.frontPos
    return { ring with
      buffer := update ring.buffer ring.frontPos none
      frontPos := if ring.size ≠ 1 then increment ring.frontPos else ring.frontPos
      count := ring.count - 1 }

/-- The loop of `insert`, for `i` down to `index + 1`: the element before slot `i` moves to it. -/
def shiftBack (ring : RingBuffer α capacity) (index : Int) (buffer : CircularIndex capacity → Option α) :
    Nat → Option (CircularIndex capacity → Option α)
  | 0 => some buffer
  | i + 1 =>
    if index < (i + 1 : Nat) then do
      let prev ← ring.indexAt i
      let curr ← ring.indexAt (i + 1 : Nat)
      let value ← buffer prev
      ring.shiftBack index (update (update buffer curr (some value)) prev none) i
    else some buffer

def insert (index : Int) (value : α) :
    Option (RingBuffer α capacity × Bool) :=
  if 0 ≤ index ∧ index ≤ ring.size then
    if ring.full then some (ring, false)
    else if index = 0 then some (ring.pushFront value)
    else if index = ring.size then some (ring.pushBack value)
    else do
      let buffer ← ring.shiftBack index ring.buffer ring.count
      let slot ← ring.indexAt index
      return ({ ring with
        buffer := update buffer slot (some value)
        backPos := increment ring.backPos
        count := ring.count + 1 }, true)
  else none

end

/-- The loop of `remove`, at slot `i` with so many slots to go. The last slot keeps what is left
of the object that was in it. -/
def closeGap [Movable α] (ring : RingBuffer α capacity) (buffer : CircularIndex capacity → Option α)
    (i : Nat) : Nat → Option (CircularIndex capacity → Option α)
  | 0 => some buffer
  | rest + 1 => do
    let curr ← ring.indexAt i
    let next ← ring.indexAt (i + 1 : Nat)
    let _ ← buffer curr
    let value ← buffer next
    ring.closeGap (update (update buffer curr (some value)) next (some (Movable.residue value))) (i + 1) rest

def remove [Movable α] (ring : RingBuffer α capacity) (index : Int) : Option (RingBuffer α capacity) :=
  if ring.empty then none
  else if 0 ≤ index ∧ index < ring.size then
    if index = 0 then ring.popFront
    else if index = ring.size - 1 then ring.popBack
    else do
      let buffer ← ring.closeGap ring.buffer index.toNat (ring.count - 1 - index.toNat)
      return { ring with
        buffer
        backPos := if ring.size ≠ 1 then decrement ring.backPos else ring.backPos
        count := ring.count - 1 }
  else none

/-- The loop of `clear`. It ends after `count_` rounds. -/
def clearLoop (ring : RingBuffer α capacity) : Nat → Option (RingBuffer α capacity)
  | 0 => some ring
  | rounds + 1 => do
    let ring ← ring.popFront
    ring.clearLoop rounds

def clear (ring : RingBuffer α capacity) : Option (RingBuffer α capacity) := ring.clearLoop ring.count

/-- The loop that pushes copies of the elements of another buffer, from the `i`th on. -/
def pushCopies (ring other : RingBuffer α capacity) (i : Nat) : Nat → Option (RingBuffer α capacity)
  | 0 => some ring
  | rest + 1 => do
    let value ← other.at? i
    (ring.pushBack value).1.pushCopies other (i + 1) rest

/-- The copy assignment from another buffer. -/
def assign (ring other : RingBuffer α capacity) : Option (RingBuffer α capacity) := do
  let ring ← ring.clear
  ring.pushCopies other 0 other.size

/-- The elements, in order. -/
def elements (ring : RingBuffer α capacity) : List α :=
  (List.range ring.count).filterMap (fun i : Nat => ring.at? i)

/-- The buffer is in good order: going around from the front, its slots hold these elements. -/
structure Holds (ring : RingBuffer α capacity) (elements : List α) : Prop where
  fits : elements.length ≤ capacity
  count : ring.count = elements.length
  reads : Reads ring.buffer ring.frontPos (elements.map some)
  back : ring.backPos = around ring.frontPos (elements.length - 1)

section
variable {ring other : RingBuffer α capacity} {elements others : List α} {value : α}

theorem holds_nil [NeZero capacity] : (nil : RingBuffer α capacity).Holds [] :=
  ⟨Nat.zero_le _, rfl, reads_nil, (around_zero _).symm⟩

theorem indexAt_of_le (bound : i ≤ ring.count) : ring.indexAt i = some (around ring.frontPos i) := by
  have inside : (0 : Int) ≤ i ∧ (i : Int) ≤ ring.count := by omega
  rw [indexAt, if_pos inside, iterate_increment, Int.toNat_natCast]

section
variable (holds : ring.Holds elements)
include holds

theorem Holds.size : ring.size = elements.length := holds.count

theorem Holds.empty_iff : ring.empty = true ↔ elements = [] := by
  simp [empty, holds.count]

theorem Holds.full_iff : ring.full = true ↔ elements.length = capacity := by
  have fits := holds.fits
  simp only [full, holds.count, decide_eq_true_eq]
  omega

/-- An index is good up to the size, where it wraps around if the buffer is full. -/
theorem Holds.slot (bound : i ≤ elements.length) (found : elements[i % capacity]? = some value) :
    ring.indexAt i = some (around ring.frontPos (i % capacity)) ∧
      ring.buffer (around ring.frontPos (i % capacity)) = some value := by
  rw [around_mod]
  refine ⟨indexAt_of_le (holds.count ▸ bound), ?_⟩
  have stored := holds.reads (i % capacity) (some value) (by simp [found])
  rwa [around_mod] at stored

theorem Holds.at_eq (bound : i ≤ elements.length) (found : elements[i % capacity]? = some value) :
    ring.at? i = some value := by
  obtain ⟨index, stored⟩ := holds.slot bound found
  simp [at?, index, stored]

theorem Holds.at_of_lt (bound : i < elements.length) : ring.at? i = some elements[i] := by
  have below : i % capacity = i := Nat.mod_eq_of_lt (Nat.lt_of_lt_of_le bound holds.fits)
  exact holds.at_eq (Nat.le_of_lt bound) (by simp [below, bound])

end

theorem Holds.at_append (holds : ring.Holds (done ++ value :: rest)) : ring.at? done.length = some value := by
  have bound : done.length < (done ++ value :: rest).length := by simp
  simpa using holds.at_of_lt bound

section
variable (holds : ring.Holds elements)
include holds

theorem Holds.elements_take (bound : n ≤ elements.length) :
    (List.range n).filterMap (fun i : Nat => ring.at? i) = elements.take n := by
  induction n with
  | zero => rfl
  | succ n ih =>
    rw [List.range_succ, List.filterMap_append, ih (Nat.le_of_succ_le bound), List.take_add_one,
      List.getElem?_eq_getElem bound]
    simp [holds.at_of_lt bound]

theorem Holds.elements_eq : ring.elements = elements := by
  rw [RingBuffer.elements, holds.count, holds.elements_take (Nat.le_refl _), List.take_length]

theorem Holds.modifyAt (bound : i ≤ elements.length) (found : elements[i % capacity]? = some value)
    {change : α → Option α} (changes : change value = some new) :
    ∃ next, ring.modifyAt i change = some next ∧ next.Holds (elements.set (i % capacity) new) := by
  obtain ⟨index, stored⟩ := holds.slot bound found
  refine ⟨_, by simp [RingBuffer.modifyAt, index, stored, changes]; rfl, ?_⟩
  have positive : 0 < capacity := ring.frontPos.pos
  refine ⟨by simpa using holds.fits, by simpa using holds.count, ?_, by simpa using holds.back⟩
  rw [List.map_set]
  exact holds.reads.update _ (by simpa using holds.fits) (Nat.mod_lt _ positive)

theorem Holds.not_full (room : elements.length < capacity) : ¬ ring.full = true := by
  rw [holds.full_iff]
  omega

end

theorem Holds.occupied (holds : ring.Holds (value :: elements)) : ring.empty = false := by
  simp [empty, holds.count]

section
variable (holds : ring.Holds elements)
include holds

/-- A write to a slot behind the elements does not change them. -/
theorem Holds.reads_update (behind : elements.length ≤ i) (bound : i < capacity)
    (changed : Option α) :
    Reads (update ring.buffer (around ring.frontPos i) changed) ring.frontPos (elements.map some) := by
  have kept := holds.reads.update changed (by simpa using holds.fits) bound
  rwa [List.set_eq_of_length_le (by simpa using behind)] at kept

/-- Where the next element is pushed at the back. -/
theorem Holds.behind :
    (if !ring.empty then increment ring.backPos else ring.backPos) = around ring.frontPos elements.length := by
  cases elements with
  | nil => simp [holds.empty_iff.mpr rfl, holds.back]
  | cons first rest => simp [holds.occupied, increment_eq, holds.back]

theorem Holds.pushBack (room : elements.length < capacity) (value : α) :
    ∃ next, ring.pushBack value = (next, true) ∧ next.Holds (elements ++ [value]) := by
  have position := holds.behind
  refine ⟨_, if_neg (holds.not_full room), ?_, ?_, ?_, ?_⟩
  · simp only [List.length_append, List.length_singleton]
    omega
  · simp [holds.count]
  · simp only [List.map_append, List.map_cons, List.map_nil, position]
    exact (holds.reads_update (Nat.le_refl _) room _).append (by simp)
  · simp only [position, List.length_append, List.length_singleton, Nat.add_sub_cancel]

theorem Holds.pushAll {values : List α} (room : elements.length + values.length ≤ capacity) :
    (values.foldl (fun ring value => (ring.pushBack value).1) ring).Holds (elements ++ values) := by
  induction values generalizing ring elements with
  | nil => simpa using holds
  | cons value rest ih =>
    rw [List.length_cons] at room
    obtain ⟨next, pushes, result⟩ := holds.pushBack (by omega) value
    rw [List.foldl_cons, pushes, List.append_cons]
    exact ih result (by simp; omega)

theorem Holds.pushFront (room : elements.length < capacity) (value : α) :
    ∃ next, ring.pushFront value = (next, true) ∧ next.Holds (value :: elements) := by
  refine ⟨_, if_neg (holds.not_full room), ?_, ?_, ?_, ?_⟩
  · simp only [List.length_cons]
    omega
  · simp [holds.count]
  · cases elements with
    | nil => exact reads_nil.cons (by simp)
    | cons first rest =>
      simp only [holds.occupied, Bool.not_false, if_true, decrement_eq]
      refine Reads.cons ?_ (by simp)
      rw [around_back]
      exact holds.reads_update (by omega) (by omega) _
  · cases elements with
    | nil => simp [holds.empty_iff.mpr rfl, holds.back]
    | cons first rest => simp [holds.occupied, holds.back, around_decrement_succ]

end

theorem Holds.popFront (holds : ring.Holds (value :: elements)) :
    ∃ next, ring.popFront = some next ∧ next.Holds elements := by
  have stored : ring.buffer ring.frontPos = some value := holds.reads.head
  refine ⟨_, by simp [RingBuffer.popFront, holds.occupied, stored]; rfl, ?_⟩
  have fits : elements.length + 1 ≤ capacity := holds.fits
  cases elements with
  | nil => exact ⟨Nat.zero_le _, by simp [holds.count], reads_nil, by simp [RingBuffer.size, holds.count, holds.back]⟩
  | cons first rest =>
    have several : ring.size ≠ 1 := by simp [holds.size]
    refine ⟨?_, by simp [holds.count], ?_, ?_⟩
    · omega
    · have kept := holds.reads.update none (by simpa using fits) (i := 0) (by omega)
      rw [around_zero] at kept
      simp only [if_neg several]
      exact kept.tail
    · simp [several, holds.back, increment_eq, Nat.add_comm]

theorem Holds.popBack (holds : ring.Holds (elements ++ [value])) :
    ∃ next, ring.popBack = some next ∧ next.Holds elements := by
  have occupied : ring.empty = false := by simp [empty, holds.count]
  have fits : elements.length + 1 ≤ capacity := by simpa using holds.fits
  have back : ring.backPos = around ring.frontPos elements.length := by simpa using holds.back
  have stored : ring.buffer ring.backPos = some value := by
    rw [back]
    exact holds.reads elements.length (some value) (by simp)
  refine ⟨_, by simp [RingBuffer.popBack, occupied, stored]; rfl, ?_, by simp [holds.count], ?_, ?_⟩
  · omega
  · have kept := holds.reads.update none (by simpa using fits) (i := elements.length) (by omega)
    rw [← back] at kept
    have cleared : Reads (update ring.buffer ring.backPos none) ring.frontPos (elements.map some ++ [none]) := by
      simpa using kept
    exact cleared.left
  · cases elements with
    | nil => simp [RingBuffer.size, holds.count, back]
    | cons first rest =>
      have several : ring.size ≠ 1 := by simp [holds.size]
      simp [several, back, decrement_around_succ]

/-- The loop of `insert` moves the gap in front of the elements that it passes. -/
theorem shiftBack_reads {buffer : CircularIndex capacity → Option α} {hole : Option α}
    {kept moved after : List α} (bound : kept.length + moved.length ≤ ring.count)
    (fits : kept.length + moved.length + 1 + after.length ≤ capacity)
    (reads : Reads buffer ring.frontPos ((kept ++ moved).map some ++ hole :: after.map some)) :
    ∃ result gap, ring.shiftBack kept.length buffer (kept.length + moved.length) = some result ∧
      Reads result ring.frontPos (kept.map some ++ gap :: (moved ++ after).map some) := by
  induction moved using List.reverseRecOn generalizing buffer hole after with
  | nil =>
    refine ⟨buffer, hole, ?_, by simpa using reads⟩
    cases kept <;> simp [shiftBack]
  | append_singleton moved value ih =>
    simp only [List.length_append, List.length_singleton] at bound fits
    generalize size : kept.length + moved.length = i at bound fits ih
    have here : ((kept ++ moved).map some).length = i := by simpa using size
    have shape : (kept ++ (moved ++ [value])).map some ++ hole :: after.map some =
        (kept ++ moved).map some ++ some value :: hole :: after.map some := by simp
    rw [shape] at reads
    have stored : buffer (around ring.frontPos i) = some value :=
      reads i (some value) (by rw [← here]; simp)
    have length : ((kept ++ moved).map some ++ some value :: hole :: after.map some).length ≤ capacity := by
      simp
      omega
    have passed := (reads.update (some value) length (i := i + 1) (by omega)).update none
      (by simpa using length) (i := i) (by omega)
    have moves : (((kept ++ moved).map some ++ some value :: hole :: after.map some).set (i + 1)
        (some value)).set i none = (kept ++ moved).map some ++ none :: (value :: after).map some := by
      rw [← here, List.set_append_right _ _ (by omega), List.set_append_right _ _ (Nat.le_refl _)]
      simp
    rw [moves] at passed
    obtain ⟨result, gap, loops, reads⟩ := ih (by omega) (by simp; omega) passed
    refine ⟨result, gap, ?_, by simpa using reads⟩
    have before : (kept.length : Int) < ((i + 1 : Nat) : Int) := by omega
    rw [List.length_append, List.length_singleton, ← Nat.add_assoc, size, shiftBack, if_pos before,
      indexAt_of_le (by omega), indexAt_of_le (by omega)]
    simpa [stored] using loops

theorem Holds.insert (holds : ring.Holds elements) (room : elements.length < capacity)
    (bound : index ≤ elements.length) (value : α) :
    ∃ next, ring.insert index value = some (next, true) ∧ next.Holds (elements.insertIdx index value) := by
  have inside : (0 : Int) ≤ index ∧ (index : Int) ≤ ring.size := by
    rw [holds.size]
    omega
  rw [RingBuffer.insert, if_pos inside, if_neg (holds.not_full room), holds.size]
  by_cases first : index = 0
  · subst first
    obtain ⟨next, pushed, result⟩ := holds.pushFront room value
    exact ⟨next, by simp [pushed], by simpa using result⟩
  · rw [if_neg (by omega)]
    by_cases last : index = elements.length
    · subst last
      obtain ⟨next, pushed, result⟩ := holds.pushBack room value
      exact ⟨next, by rw [if_pos rfl, pushed], by simpa using result⟩
    · rw [if_neg (by omega)]
      obtain ⟨kept, moved, rfl, rfl⟩ : ∃ kept moved, elements = kept ++ moved ∧ index = kept.length :=
        ⟨elements.take index, elements.drop index, by simp, by simp; omega⟩
      simp only [List.length_append] at room last
      have opened : Reads ring.buffer ring.frontPos ((kept ++ moved).map some ++
          ring.buffer (around ring.frontPos (kept.length + moved.length)) :: ([] : List α).map some) :=
        holds.reads.append (by simp)
      have counted : ring.count = kept.length + moved.length := by simp [holds.count]
      obtain ⟨buffer, gap, loops, reads⟩ := shiftBack_reads (by omega) (by simp; omega) opened
      have filled := reads.update (some value) (by simp; omega) (i := kept.length) (by omega)
      rw [counted, loops, indexAt_of_le (by omega), Lists.insertIdx_append]
      refine ⟨_, rfl, ?_, ?_, ?_, ?_⟩
      · simp
        omega
      · simp
        omega
      · simpa using filled
      · have positive : 0 < kept.length + moved.length := by omega
        simp only [increment_eq, holds.back, around_around, List.length_append, List.length_cons]
        congr 1
        omega

theorem insert_full (full : ring.full = true) {index : Int} (inside : 0 ≤ index ∧ index ≤ ring.size)
    (value : α) : ring.insert index value = some (ring, false) := by
  rw [RingBuffer.insert, if_pos inside, if_pos full]

theorem insert_outside {index : Int} (outside : ¬ (0 ≤ index ∧ index ≤ ring.size)) (value : α) :
    ring.insert index value = none := if_neg outside

section
variable [Movable α]

/-- The loop of `remove` drops the element at its start. -/
theorem closeGap_reads {buffer : CircularIndex capacity → Option α} {gap : α} {done rest : List α}
    (fits : ring.count ≤ capacity) (bound : done.length + 1 + rest.length ≤ ring.count)
    (reads : Reads buffer ring.frontPos (done.map some ++ some gap :: rest.map some)) :
    ∃ result spare, ring.closeGap buffer done.length rest.length = some result ∧
      Reads result ring.frontPos ((done ++ rest).map some ++ [spare]) := by
  induction rest generalizing buffer gap done with
  | nil => exact ⟨buffer, some gap, rfl, by simpa using reads⟩
  | cons value rest ih =>
    simp only [List.length_cons] at bound
    have first : buffer (around ring.frontPos done.length) = some gap :=
      reads done.length (some gap) (by simp)
    have second : buffer (around ring.frontPos (done.length + 1)) = some value :=
      reads (done.length + 1) (some value) (by simp)
    have length : (done.map some ++ some gap :: (value :: rest).map some).length ≤ capacity := by
      simp
      omega
    have moved := (reads.update (some value) length (i := done.length) (by omega)).update
      (some (Movable.residue value)) (by simpa using length) (i := done.length + 1) (by omega)
    have shape : ((done.map some ++ some gap :: (value :: rest).map some).set done.length (some value)).set
        (done.length + 1) (some (Movable.residue value)) =
        (done ++ [value]).map some ++ some (Movable.residue value) :: rest.map some := by
      simp
    rw [shape] at moved
    obtain ⟨result, spare, loops, reads⟩ := ih (by simp; omega) moved
    refine ⟨result, spare, ?_, by simpa using reads⟩
    rw [List.length_cons, closeGap, indexAt_of_le (by omega), indexAt_of_le (by omega)]
    simpa [first, second] using loops

theorem Holds.remove (holds : ring.Holds elements) (bound : index < elements.length) :
    ∃ next, ring.remove index = some next ∧ next.Holds (elements.eraseIdx index) := by
  obtain ⟨kept, gap, rest, rfl, rfl⟩ : ∃ kept gap rest, elements = kept ++ gap :: rest ∧ index = kept.length :=
    ⟨elements.take index, elements[index], elements.drop (index + 1), by simp, by simp; omega⟩
  have erased : (kept ++ gap :: rest).eraseIdx kept.length = kept ++ rest := by
    rw [List.eraseIdx_append_of_length_le (Nat.le_refl _)]
    simp
  have occupied : ring.empty = false := by simp [empty, holds.count]
  have counted : ring.count = kept.length + rest.length + 1 := by simp [holds.count, Nat.add_assoc]
  have inside : (0 : Int) ≤ kept.length ∧ (kept.length : Int) < ring.size := by
    rw [RingBuffer.size, counted]
    omega
  rw [RingBuffer.remove, occupied, if_neg Bool.false_ne_true, if_pos inside, erased]
  by_cases first : kept = []
  · subst first
    exact holds.popFront
  · have notFirst : kept.length ≠ 0 := fun impossible => first (List.eq_nil_of_length_eq_zero impossible)
    rw [if_neg (by omega)]
    by_cases last : rest = []
    · subst last
      rw [if_pos (by simp [RingBuffer.size, counted])]
      simpa using holds.popBack
    · have notLast : rest.length ≠ 0 := fun impossible => last (List.eq_nil_of_length_eq_zero impossible)
      have several : ring.size ≠ 1 := by
        rw [RingBuffer.size, counted]
        omega
      have fits : ring.count ≤ capacity := holds.count ▸ holds.fits
      have back : ring.backPos = around ring.frontPos (kept.length + rest.length) := by
        simpa using holds.back
      have stored : Reads ring.buffer ring.frontPos (kept.map some ++ some gap :: rest.map some) := by
        simpa using holds.reads
      obtain ⟨buffer, spare, loops, reads⟩ := closeGap_reads fits (by omega) stored
      have remaining : ring.count - 1 - kept.length = rest.length := by omega
      have behind : kept.length + rest.length = kept.length + rest.length - 1 + 1 := by omega
      rw [if_neg (by rw [RingBuffer.size, counted]; omega), Int.toNat_natCast, remaining, loops]
      refine ⟨_, rfl, ?_, ?_, reads.left, ?_⟩
      · simp
        omega
      · simp
        omega
      · rw [if_pos several, back, behind, decrement_around_succ, List.length_append]

end

theorem Holds.clear (holds : ring.Holds elements) :
    ∃ next, ring.clear = some next ∧ next.Holds [] := by
  rw [RingBuffer.clear, holds.count]
  induction elements generalizing ring with
  | nil => exact ⟨ring, rfl, holds⟩
  | cons first rest ih =>
    obtain ⟨popped, pops, result⟩ := holds.popFront
    obtain ⟨next, clears, result⟩ := ih result
    exact ⟨next, by simp [clearLoop, pops, clears], result⟩

/-- The loop appends the elements that are left. -/
theorem Holds.pushCopies (holds : ring.Holds elements) (copied : other.Holds (done ++ rest))
    (fits : elements.length + rest.length ≤ capacity) :
    ∃ next, ring.pushCopies other done.length rest.length = some next ∧ next.Holds (elements ++ rest) := by
  induction rest generalizing ring elements done with
  | nil => exact ⟨ring, rfl, by simpa using holds⟩
  | cons value rest ih =>
    simp only [List.length_cons] at fits
    have read : other.at? done.length = some value := copied.at_append
    obtain ⟨pushed, pushes, result⟩ := holds.pushBack (by omega) value
    rw [List.append_cons] at copied
    obtain ⟨next, copies, result⟩ := ih result copied (by simp; omega)
    refine ⟨next, ?_, by simpa using result⟩
    simpa [RingBuffer.pushCopies, read, pushes] using copies

theorem Holds.assign (holds : ring.Holds elements) (copied : other.Holds others) :
    ∃ next, ring.assign other = some next ∧ next.Holds others := by
  obtain ⟨cleared, clears, result⟩ := holds.clear
  obtain ⟨next, copies, result⟩ := result.pushCopies (List.nil_append others ▸ copied) (by simpa using copied.fits)
  exact ⟨next, by simpa [RingBuffer.assign, clears, copied.size] using copies, result⟩

end

end RingBuffer

end FlapjackOS
