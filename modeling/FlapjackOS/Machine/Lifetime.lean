import FlapjackOS.Machine.Custody
import FlapjackOS.Machine.Runs
import Mathlib.Data.Set.Function
import Mathlib.Order.Interval.Set.Defs

/-! Objects in raw storage: which slots hold one, what may be done to a slot, and that every object
that is constructed is destroyed exactly once if nothing is left. -/

namespace FlapjackOS.Lifetime

open Function Custody Runs

variable {Slot : Type}

inductive Event (Slot : Type) where
  /-- An object is constructed in a raw slot. -/
  | construct (slot : Slot)
  /-- The object in the slot is copied or moved from. -/
  | use (slot : Slot)
  /-- The object in the slot is assigned to. -/
  | assign (slot : Slot)
  | destroy (slot : Slot)
  deriving DecidableEq, Repr

/-- The objects are numbered in the order of their construction. -/
structure Ledger (Slot : Type) where
  live : Slot → Option Nat
  made : Nat
  destroyed : List Nat

def Ledger.empty : Ledger Slot := { live := fun _ => none, made := 0, destroyed := [] }

section
variable {State : Type} {ledger : Ledger Slot} {slotsOf : State → Set Slot}

/-- Exactly these slots hold an object. -/
def Occupies (ledger : Ledger Slot) (slots : Set Slot) : Prop := ∀ slot, (ledger.live slot).isSome ↔ slot ∈ slots

theorem occupies_empty : Occupies (Ledger.empty : Ledger Slot) ∅ := fun _ => by simp [Ledger.empty]

/-- No object is in two slots, and each that has been made is in a slot or has been destroyed once. -/
structure Sound (ledger : Ledger Slot) : Prop where
  exclusive : Exclusive ledger.live
  balanced : Balanced ledger.live (List.range ledger.made).reverse ledger.destroyed

theorem sound_empty : Sound (Ledger.empty : Ledger Slot) where
  exclusive := by
    intro first second object held
    cases held
  balanced := by
    refine ⟨?_, fun object _ => rfl⟩
    rintro object ⟨slot, held⟩
    cases held

theorem Sound.fresh (sound : Sound ledger) : ¬ Held ledger.live ledger.made := by
  intro held
  have counted := sound.balanced.held _ held
  rw [List.count_reverse, List.count_range, if_neg (Nat.lt_irrefl _)] at counted
  omega

/-- If no slot holds an object, each that was made has been destroyed exactly once. -/
theorem Sound.settled {object : Nat} (sound : Sound ledger) (nothing : Occupies ledger ∅)
    (made : object < ledger.made) : ledger.destroyed.count object = 1 := by
  have unheld : ¬ Held ledger.live object := by
    rintro ⟨slot, held⟩
    exact (nothing slot).mp (Option.isSome_of_eq_some held)
  rw [← sound.balanced.settled object unheld, List.count_reverse, List.count_range, if_pos made]

/-- The state of a machine, and what has become of its objects. -/
structure Tracked (State Slot : Type) where
  state : State
  ledger : Ledger Slot

/-- Exactly the slots in use hold an object, and if there are none, each object that was made has
been destroyed exactly once. -/
structure Clean (slotsOf : State → Set Slot) (tracked : Tracked State Slot) : Prop where
  occupied : Occupies tracked.ledger (slotsOf tracked.state)
  settled : slotsOf tracked.state = ∅ →
    ∀ object < tracked.ledger.made, tracked.ledger.destroyed.count object = 1

theorem clean_of_occupies {state : State} (occupies : Occupies ledger (slotsOf state)) (sound : Sound ledger) :
    Clean slotsOf { state, ledger } := by
  refine ⟨occupies, fun empty object made => sound.settled ?_ made⟩
  rwa [← empty]

end

section
variable {place : Nat → Slot} {n i : Nat}

/-- The slots at the first places. -/
def row (place : Nat → Slot) (n : Nat) : Set Slot := { slot | ∃ i < n, place i = slot }

theorem row_zero : row place 0 = ∅ := by
  simp [row]

theorem row_succ : row place (n + 1) = insert (place n) (row place n) := by
  ext slot
  rw [Set.mem_insert_iff, eq_comm, or_comm]
  exact Nat.exists_lt_succ_right

theorem row_succ_left : row place (n + 1) = insert (place 0) (row (fun i => place (i + 1)) n) := by
  ext slot
  rw [Set.mem_insert_iff, eq_comm]
  exact Nat.exists_lt_succ_left

theorem place_mem_row (inside : i < n) : place i ∈ row place n := ⟨i, inside, rfl⟩

theorem place_notMem_row (apart : Set.InjOn place (Set.Iic n)) : place n ∉ row place n := by
  rintro ⟨i, inside, same⟩
  exact Nat.ne_of_lt inside (apart (Nat.le_of_lt inside) (Nat.le_refl n) same)

theorem place_zero_notMem_row (apart : Set.InjOn place (Set.Iic n)) : place 0 ∉ row (fun i => place (i + 1)) n := by
  rintro ⟨i, inside, same⟩
  exact Nat.succ_ne_zero i (apart inside (Nat.zero_le n) same)

end

section
variable [DecidableEq Slot]

/-- `none` stands for an object constructed over another, or for the use of a raw slot. -/
def Ledger.step (ledger : Ledger Slot) : Event Slot → Option (Ledger Slot)
  | .construct slot =>
    if (ledger.live slot).isSome then none
    else some { ledger with live := update ledger.live slot (some ledger.made), made := ledger.made + 1 }
  | .use slot | .assign slot => if (ledger.live slot).isSome then some ledger else none
  | .destroy slot =>
    (ledger.live slot).map fun object => { ledger with
      live := update ledger.live slot none
      destroyed := object :: ledger.destroyed }

def replay (ledger : Ledger Slot) (events : List (Event Slot)) : Option (Ledger Slot) := run Ledger.step ledger events

/-- The events are possible if exactly the slots in `before` hold an object, and exactly those in
`after` do so in the end. -/
def Replays (before : Set Slot) (events : List (Event Slot)) (after : Set Slot) : Prop :=
  ∀ ledger, Occupies ledger before → ∃ next, replay ledger events = some next ∧ Occupies next after

variable {before middle after : Set Slot} {events more : List (Event Slot)} {slot : Slot} {ledger next : Ledger Slot}

theorem Replays.nil : Replays before [] before := fun ledger occupies => ⟨ledger, rfl, occupies⟩

theorem Replays.append (first : Replays before events middle) (second : Replays middle more after) :
    Replays before (events ++ more) after := by
  intro ledger occupies
  obtain ⟨next, replayed, occupied⟩ := first ledger occupies
  obtain ⟨final, finished, result⟩ := second next occupied
  refine ⟨final, ?_, result⟩
  rw [replay, run_append, ← replay, replayed]
  exact finished

theorem replays_construct (raw : slot ∉ before) : Replays before [.construct slot] (insert slot before) := by
  intro ledger occupies
  have empty : ¬ (ledger.live slot).isSome = true := fun live => raw ((occupies slot).mp live)
  refine ⟨_, by rw [replay, run, Ledger.step, if_neg empty]; rfl, fun other => ?_⟩
  by_cases here : other = slot
  · simp [here]
  · simpa [here] using occupies other

theorem replays_destroy (live : slot ∈ before) : Replays before [.destroy slot] (before \ {slot}) := by
  intro ledger occupies
  obtain ⟨object, found⟩ := Option.isSome_iff_exists.mp ((occupies slot).mpr live)
  refine ⟨_, by rw [replay, run, Ledger.step, found]; rfl, fun other => ?_⟩
  by_cases here : other = slot
  · simp [here]
  · simpa [here] using occupies other

theorem replays_take (absent : slot ∉ before) : Replays (insert slot before) [.destroy slot] before := by
  have destroyed : Replays (insert slot before) [.destroy slot] _ := replays_destroy (Set.mem_insert slot before)
  rwa [Set.insert_sdiff_self_of_notMem absent] at destroyed

theorem replays_use (live : slot ∈ before) : Replays before [.use slot] before := by
  intro ledger occupies
  refine ⟨ledger, ?_, occupies⟩
  rw [replay, run, Ledger.step, if_pos ((occupies slot).mpr live)]
  rfl

theorem Sound.step {event : Event Slot} (sound : Sound ledger) (stepped : ledger.step event = some next) :
    Sound next := by
  cases event with
  | construct slot =>
    simp only [Ledger.step, Option.ite_none_left_eq_some, Option.some.injEq] at stepped
    obtain ⟨raw, rfl⟩ := stepped
    refine ⟨sound.exclusive.acquire sound.fresh, ?_⟩
    rw [List.range_succ, List.reverse_append]
    exact sound.balanced.acquire (by simpa using raw) sound.fresh
  | use slot | assign slot =>
    simp only [Ledger.step, Option.ite_none_right_eq_some, Option.some.injEq] at stepped
    exact stepped.2 ▸ sound
  | destroy slot =>
    obtain ⟨object, live, rfl⟩ := Option.map_eq_some_iff.mp stepped
    exact ⟨sound.exclusive.release, sound.balanced.release sound.exclusive live⟩

theorem Sound.replay (sound : Sound ledger) (replayed : replay ledger events = some next) : Sound next :=
  run_preserves (fun _ _ _ _ held => held.step) sound replayed

section
variable {place : Nat → Slot} {n i index : Nat}

/-- The objects from the last place down to the index move up by one place. -/
def moveUp (place : Nat → Slot) (index : Nat) : Nat → List (Event Slot)
  | 0 => []
  | i + 1 =>
    if index < i + 1 then
      [.use (place i), .construct (place (i + 1)), .destroy (place i)] ++ moveUp place index i
    else []

/-- The object at place `i` makes way for the next one, and so on for so many places. -/
def moveDown (place : Nat → Slot) (i : Nat) : Nat → List (Event Slot)
  | 0 => []
  | rest + 1 =>
    [.destroy (place i), .use (place (i + 1)), .construct (place i)] ++ moveDown place (i + 1) rest

/-- An object is constructed again at a place that had lost it. -/
theorem replays_refill (inside : i < n) :
    Replays (row place n \ {place i}) [.construct (place i)] (row place n) := by
  have built : Replays (row place n \ {place i}) [.construct (place i)] _ :=
    replays_construct fun member => member.2 rfl
  rwa [Set.insert_sdiff_singleton, Set.insert_eq_of_mem (place_mem_row inside)] at built

variable (apart : Set.InjOn place (Set.Iic n))
include apart

theorem replays_pushLast : Replays (row place n) [.construct (place n)] (row place (n + 1)) := by
  rw [row_succ]
  exact replays_construct (place_notMem_row apart)

theorem replays_popLast : Replays (row place (n + 1)) [.destroy (place n)] (row place n) := by
  rw [row_succ]
  exact replays_take (place_notMem_row apart)

theorem replays_pushFirst :
    Replays (row (fun i => place (i + 1)) n) [.construct (place 0)] (row place (n + 1)) := by
  rw [row_succ_left]
  exact replays_construct (place_zero_notMem_row apart)

theorem replays_popFirst :
    Replays (row place (n + 1)) [.destroy (place 0)] (row (fun i => place (i + 1)) n) := by
  rw [row_succ_left]
  exact replays_take (place_zero_notMem_row apart)

/-- The gap moves down to the index. -/
theorem moveUp_replays (low : index ≤ i) (high : i ≤ n) :
    Replays (row place (n + 1) \ {place i}) (moveUp place index i) (row place (n + 1) \ {place index}) := by
  induction i with
  | zero =>
    rw [Nat.le_zero.mp low]
    exact .nil
  | succ i ih =>
    rw [moveUp]
    split
    · rename_i before
      have below : i ≤ n := Nat.le_of_succ_le high
      have present : place i ∈ row place (n + 1) := place_mem_row (Nat.lt_succ_of_le below)
      have different : place i ≠ place (i + 1) := fun same => Nat.succ_ne_self i (apart below high same).symm
      have used : Replays (row place (n + 1) \ {place (i + 1)}) [.use (place i)] _ :=
        replays_use ⟨present, different⟩
      have moved := (replays_refill (Nat.lt_succ_of_le high)).append (replays_destroy present)
      exact (used.append moved).append (ih (Nat.le_of_lt_succ before) below)
    · rename_i last
      rw [show index = i + 1 by omega]
      exact .nil

/-- The objects make room for one more at the index. -/
theorem replays_insert (bound : index ≤ n) :
    Replays (row place n) (moveUp place index n ++ [.construct (place index)]) (row place (n + 1)) := by
  have moved := moveUp_replays apart bound (Nat.le_refl n)
  rw [row_succ, Set.insert_sdiff_self_of_notMem (place_notMem_row apart), ← row_succ] at moved
  exact moved.append (replays_refill (Nat.lt_succ_of_le bound))

/-- Every place has an object again in the end, the last one as well. -/
theorem moveDown_replays (bound : i + rest ≤ n) :
    Replays (row place (n + 1)) (moveDown place i rest) (row place (n + 1)) := by
  induction rest generalizing i with
  | zero => exact .nil
  | succ rest ih =>
    have here : i < n + 1 := by omega
    have next : i + 1 < n + 1 := by omega
    have different : place (i + 1) ≠ place i := fun same =>
      Nat.succ_ne_self i (apart (Nat.le_of_lt_succ next) (Nat.le_of_lt_succ here) same)
    have used : Replays (row place (n + 1) \ {place i}) [.use (place (i + 1))] _ :=
      replays_use ⟨place_mem_row next, different⟩
    have moved := (replays_destroy (place_mem_row here)).append (used.append (replays_refill here))
    exact moved.append (ih (by omega))

end

section
variable {State Action : Type} {step : State → Action → Option State} {trace : State → Action → List (Event Slot)}
  {slotsOf : State → Set Slot} {Invariant : State → Prop} {Allowed : State → Action → Prop}

def track (step : State → Action → Option State) (trace : State → Action → List (Event Slot))
    (tracked : Tracked State Slot) (action : Action) : Option (Tracked State Slot) := do
  let state ← step tracked.state action
  let ledger ← replay tracked.ledger (trace tracked.state action)
  return { state, ledger }

/-- In a run that the machine performs, no object is misused or lost if every step is allowed, and
only then: an allowed step leaves objects in exactly the slots in use, no other step does. -/
theorem always_clean_iff
    (keeps : ∀ state action next, Invariant state → step state action = some next → Invariant next)
    (kept : ∀ state action next, Invariant state → step state action = some next → Allowed state action →
      Replays (slotsOf state) (trace state action) (slotsOf next))
    (broken : ∀ state action next, Invariant state → step state action = some next → ¬ Allowed state action →
      ∀ ledger after, Occupies ledger (slotsOf state) → replay ledger (trace state action) = some after →
        ¬ Occupies after (slotsOf next))
    {state : State} {actions : List Action} (ran : (run step state actions).isSome) (held : Invariant state)
    (occupies : Occupies ledger (slotsOf state)) (sound : Sound ledger) :
    Always (track step trace) (Clean slotsOf) { state, ledger } actions ↔ Legal step Allowed state actions := by
  induction actions generalizing state ledger with
  | nil => exact iff_of_true (clean_of_occupies occupies sound) trivial
  | cons action rest ih =>
    obtain ⟨final, found⟩ := Option.isSome_iff_exists.mp ran
    obtain ⟨next, stepped, ran⟩ := Option.bind_eq_some_iff.mp found
    have performed := Option.isSome_of_eq_some ran
    have invariant := keeps state action next held stepped
    constructor
    · rintro ⟨_, tracked, moved, always⟩
      simp only [track, stepped, Option.bind_eq_bind, Option.bind_some, Option.bind_eq_some_iff] at moved
      obtain ⟨after, replayed, same⟩ := moved
      cases same
      have filled := always.start.occupied
      have allowed : Allowed state action := Classical.byContradiction fun denied =>
        broken state action next held stepped denied ledger after occupies replayed filled
      refine ⟨allowed, fun other same => ?_⟩
      cases stepped.symm.trans same
      exact (ih performed invariant filled (sound.replay replayed)).mp always
    · rintro ⟨allowed, legal⟩
      obtain ⟨after, replayed, filled⟩ := kept state action next held stepped allowed ledger occupies
      refine ⟨clean_of_occupies occupies sound, { state := next, ledger := after }, ?_, ?_⟩
      · simp [track, stepped, replayed]
      · exact (ih performed invariant filled (sound.replay replayed)).mpr (legal next stepped)

end

end

end FlapjackOS.Lifetime
