import FlapjackOS.Machine.Lifetime

/-! The lifetimes of the contents of `Either` objects. Copies and moves of values differ in nothing here. -/

namespace FlapjackOS.Either

open Function Lifetime Runs

/-- What an `Either` takes its content from: an object elsewhere, or the content of an `Either`. -/
inductive Source (Name : Type) where
  | outer (isLeft : Bool)
  | inner (other : Name)
  deriving DecidableEq, Repr

/-- Construction from another `Either` is that from its content. Assignment compares the two first. -/
inductive Operation (Name : Type) where
  | construct (name : Name) (source : Source Name)
  | assign (name : Name) (source : Source Name)
  | assignEither (name other : Name)
  | destruct (name : Name)
  deriving DecidableEq, Repr

/-- The `Either` objects that there are, with `is_left_`. -/
abbrev Pool (Name : Type) := Name → Option Bool

variable {Name : Type} [DecidableEq Name]

section
variable (pool : Pool Name)

def fill (name : Name) : Source Name → Option (Pool Name)
  | .outer isLeft => some (update pool name (some isLeft))
  | .inner other => (pool other).map fun isLeft => update pool name (some isLeft)

def assign (name : Name) (source : Source Name) : Option (Pool Name) :=
  if (pool name).isSome then fill pool name source else none

def step : Operation Name → Option (Pool Name)
  | .construct name source => if (pool name).isSome then none else fill pool name source
  | .assign name source => assign pool name source
  | .assignEither name other => if name = other then (pool name).map (fun _ => pool) else assign pool name
    (.inner other)
  | .destruct name => if (pool name).isSome then some (update pool name none) else none

/-- The member of the union that holds the content. -/
def slot (name : Name) : Name × Bool := (name, (pool name).getD false)

def fillEvents (name : Name) : Source Name → List (Event (Name × Bool))
  | .outer isLeft => [.construct (name, isLeft)]
  | .inner other => [.use (slot pool other), .construct (name, (slot pool other).2)]

def events : Operation Name → List (Event (Name × Bool))
  | .construct name source => fillEvents pool name source
  | .assign name source => .destroy (slot pool name) :: fillEvents pool name source
  | .assignEither name other =>
    if name = other then [] else .destroy (slot pool name) :: fillEvents pool name (.inner other)
  | .destruct name => [.destroy (slot pool name)]

def slotsOf : Set (Name × Bool) := { slot | pool slot.1 = some slot.2 }

end

/-- No `Either` is assigned its own content. -/
def Apart : Operation Name → Prop
  | .assign name source => source ≠ .inner name
  | _ => True

variable {pool next : Pool Name} {name : Name} {source : Source Name} {operation : Operation Name}

theorem destroy_replays (held : (pool name).isSome) :
    Replays (slotsOf pool) [.destroy (slot pool name)] (slotsOf (update pool name none)) := by
  obtain ⟨isLeft, found⟩ := Option.isSome_iff_exists.mp held
  rw [slot, found, Option.getD_some]
  have destroyed : Replays (slotsOf pool) [.destroy (name, isLeft)] _ := replays_destroy found
  convert destroyed using 1
  ext ⟨other, side⟩
  by_cases here : other = name
  · simp [slotsOf, here, found, eq_comm]
  · simp [slotsOf, here]

theorem fill_replays (filled : fill pool name source = some next) (apart : source ≠ .inner name) :
    Replays (slotsOf (update pool name none)) (fillEvents pool name source) (slotsOf next) := by
  have constructed (isLeft : Bool) : Replays (slotsOf (update pool name none)) [.construct (name, isLeft)]
      (slotsOf (update pool name (some isLeft))) := by
    convert replays_construct (show (name, isLeft) ∉ slotsOf (update pool name none) by simp [slotsOf]) using 1
    ext ⟨other, side⟩
    by_cases here : other = name
    · simp [slotsOf, here, eq_comm]
    · simp [slotsOf, here]
  cases source with
  | outer isLeft =>
    cases filled
    exact constructed isLeft
  | inner other =>
    obtain ⟨isLeft, found, rfl⟩ := Option.map_eq_some_iff.mp filled
    have different : other ≠ name := fun same => apart (same ▸ rfl)
    have used : Replays (slotsOf (update pool name none)) [.use (other, isLeft)] _ :=
      replays_use (by simpa [slotsOf, different] using found)
    rw [fillEvents, slot, found, Option.getD_some]
    exact used.append (constructed isLeft)

theorem assign_replays (assigned : assign pool name source = some next) (apart : source ≠ .inner name) :
    Replays (slotsOf pool) (.destroy (slot pool name) :: fillEvents pool name source) (slotsOf next) := by
  obtain ⟨held, filled⟩ := Option.ite_none_right_eq_some.mp assigned
  exact (destroy_replays held).append (fill_replays filled apart)

theorem step_replays (stepped : step pool operation = some next) (apart : Apart operation) :
    Replays (slotsOf pool) (events pool operation) (slotsOf next) := by
  cases operation with
  | construct name source =>
    obtain ⟨raw, filled⟩ := Option.ite_none_left_eq_some.mp stepped
    have absent : pool name = none := by simpa using raw
    have constructed := fill_replays filled (by rintro rfl; simp [fill, absent] at filled)
    rwa [← absent, update_eq_self] at constructed
  | assign name source => exact assign_replays stepped apart
  | assignEither name other =>
    simp only [step, events] at stepped ⊢
    split_ifs at stepped ⊢ with same
    · obtain ⟨_, -, rfl⟩ := Option.map_eq_some_iff.mp stepped
      exact .nil
    · exact assign_replays stepped (by rintro ⟨⟩; exact same rfl)
  | destruct name =>
    obtain ⟨held, same⟩ := Option.ite_none_right_eq_some.mp stepped
    cases same
    exact destroy_replays held

/-- The content is destroyed before it is copied or moved from. -/
theorem replay_own {ledger : Ledger (Name × Bool)} (own : ¬ Apart operation) :
    replay ledger (events pool operation) = none := by
  cases operation with
  | assign name source =>
    obtain rfl : source = .inner name := not_not.mp own
    simp only [events, fillEvents, replay, run, Ledger.step]
    cases ledger.live (slot pool name) <;> simp
  | construct name source | assignEither name other | destruct name => exact absurd trivial own

/-- Whatever is done to `Either` objects, every content is destroyed once and none is used that is not
there, exactly if none of them is assigned its own content. -/
theorem contents_clean_iff (operations : List (Operation Name)) (ran : (run step (fun _ => none) operations).isSome) :
    Always (track step events) (Clean slotsOf) { state := fun _ => none, ledger := .empty } operations ↔
      Legal step (fun _ => Apart) (fun _ => none) operations := by
  have start : Occupies (.empty : Ledger (Name × Bool)) (slotsOf fun _ => none) := fun _ => by
    simp [slotsOf, Ledger.empty]
  have kept (pool : Pool Name) (operation : Operation Name) (next : Pool Name) (_ : True) :=
    @step_replays _ _ pool next operation
  refine always_clean_iff (fun _ _ _ _ _ => trivial) kept (fun _ _ _ _ _ own ledger after _ replayed => ?_) ran trivial
    start sound_empty
  rw [replay_own own] at replayed
  cases replayed

/-- An `Either` is assigned its left value. -/
theorem own_content_unclean : ¬ Always (track step events) (Clean slotsOf)
    { state := fun _ => none, ledger := .empty } [.construct 0 (.outer true), .assign 0 (.inner 0)] := by
  rw [contents_clean_iff _ rfl]
  simp [Legal, Apart, step, fill]

end FlapjackOS.Either
