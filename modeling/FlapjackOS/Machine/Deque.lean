import FlapjackOS.Machine.Simulation
import Mathlib.Data.List.InsertIdx
import Mathlib.Logic.Function.Basic

/-! Double-ended queues under names, with copies and moves between them, and what it takes for one
implementation to follow another. -/

namespace FlapjackOS

open Function Simulation

/-- The operations of a double-ended queue of `α` on its representation `σ`. An operation that may
not be used as it was is `none`. Insertions say whether they succeeded. -/
structure Deque (α σ : Type) where
  construct : σ
  destroy : σ → Option Unit
  pushBack : σ → α → Option (σ × Bool)
  pushFront : σ → α → Option (σ × Bool)
  popBack : σ → Option σ
  popFront : σ → Option σ
  insert : σ → Int → α → Option (σ × Bool)
  remove : σ → Int → Option σ
  clear : σ → Option σ
  copyConstruct : σ → Option σ
  /-- The new queue, and what becomes of the one that was moved from. -/
  moveConstruct : σ → Option (σ × σ)
  copyAssign : σ → σ → Option σ
  moveAssign : σ → σ → Option (σ × σ)

namespace Deque

inductive Action (Name α : Type) where
  | construct (id : Name)
  | destroy (id : Name)
  | pushBack (id : Name) (value : α)
  | pushFront (id : Name) (value : α)
  | popBack (id : Name)
  | popFront (id : Name)
  | insert (id : Name) (index : Int) (value : α)
  | remove (id : Name) (index : Int)
  | clear (id : Name)
  | copyConstruct (id source : Name)
  | moveConstruct (id source : Name)
  | copyAssign (id source : Name)
  | moveAssign (id source : Name)
  deriving DecidableEq, Repr

/-- The queues that exist, and what the insertions said, the latest first. -/
structure World (Name σ : Type) where
  queues : Name → Option σ
  results : List Bool

section
variable {Name α σ τ : Type} {related : σ → τ → Prop}

def World.empty : World Name σ := { queues := fun _ => none, results := [] }

/-- The same names, related queues and the same results. -/
structure Agree (related : σ → τ → Prop) (world : World Name σ) (model : World Name τ) : Prop where
  queues : ∀ id, Option.Rel related (world.queues id) (model.queues id)
  results : world.results = model.results

variable [DecidableEq Name]

section
variable (world : World Name σ) (id : Name)

/-- Put a queue in the place of another, or of none. -/
def World.put (queue : Option σ) : World Name σ :=
  { world with queues := update world.queues id queue }

/-- A queue under a new name. -/
def World.add (queue : Option σ) : Option (World Name σ) :=
  match world.queues id with
  | none => queue.map fun queue => world.put id (some queue)
  | some _ => none

def World.change (operation : σ → Option σ) : Option (World Name σ) :=
  (world.queues id).bind fun queue => (operation queue).map fun queue => world.put id (some queue)

def World.report (operation : σ → Option (σ × Bool)) : Option (World Name σ) :=
  (world.queues id).bind fun queue => (operation queue).map fun result =>
    { world.put id (some result.1) with results := result.2 :: world.results }

end

/-- A name for itself is left as it is in an assignment. -/
def step (deque : Deque α σ) (world : World Name σ) : Action Name α → Option (World Name σ)
  | .construct id => world.add id (some deque.construct)
  | .destroy id =>
    (world.queues id).bind fun queue => (deque.destroy queue).map fun _ => world.put id none
  | .pushBack id value => world.report id (deque.pushBack · value)
  | .pushFront id value => world.report id (deque.pushFront · value)
  | .popBack id => world.change id deque.popBack
  | .popFront id => world.change id deque.popFront
  | .insert id index value => world.report id (deque.insert · index value)
  | .remove id index => world.change id (deque.remove · index)
  | .clear id => world.change id deque.clear
  | .copyConstruct id source =>
    (world.queues source).bind fun other => world.add id (deque.copyConstruct other)
  | .moveConstruct id source =>
    (world.queues source).bind fun other => (deque.moveConstruct other).bind fun moved =>
      (world.add id (some moved.1)).map fun world => world.put source (some moved.2)
  | .copyAssign id source =>
    if id = source then world.change id some
    else (world.queues source).bind fun other => world.change id (deque.copyAssign · other)
  | .moveAssign id source =>
    if id = source then world.change id some
    else (world.queues source).bind fun other => (world.queues id).bind fun queue =>
      (deque.moveAssign queue other).map fun moved => (world.put id (some moved.1)).put source (some moved.2)

/-- Every operation of one implementation follows that of the other on related queues. -/
structure Follows (related : σ → τ → Prop) (deque : Deque α σ) (spec : Deque α τ) : Prop where
  construct : related deque.construct spec.construct
  destroy : ∀ {q l}, related q l → Option.Rel (fun _ _ => True) (deque.destroy q) (spec.destroy l)
  pushBack : ∀ {q l}, related q l → ∀ value,
    Option.Rel (fun first second => related first.1 second.1 ∧ first.2 = second.2)
      (deque.pushBack q value) (spec.pushBack l value)
  pushFront : ∀ {q l}, related q l → ∀ value,
    Option.Rel (fun first second => related first.1 second.1 ∧ first.2 = second.2)
      (deque.pushFront q value) (spec.pushFront l value)
  popBack : ∀ {q l}, related q l → Option.Rel related (deque.popBack q) (spec.popBack l)
  popFront : ∀ {q l}, related q l → Option.Rel related (deque.popFront q) (spec.popFront l)
  insert : ∀ {q l}, related q l → ∀ index value,
    Option.Rel (fun first second => related first.1 second.1 ∧ first.2 = second.2)
      (deque.insert q index value) (spec.insert l index value)
  remove : ∀ {q l}, related q l → ∀ index, Option.Rel related (deque.remove q index) (spec.remove l index)
  clear : ∀ {q l}, related q l → Option.Rel related (deque.clear q) (spec.clear l)
  copyConstruct : ∀ {q l}, related q l → Option.Rel related (deque.copyConstruct q) (spec.copyConstruct l)
  moveConstruct : ∀ {q l}, related q l →
    Option.Rel (fun first second => related first.1 second.1 ∧ related first.2 second.2)
      (deque.moveConstruct q) (spec.moveConstruct l)
  copyAssign : ∀ {q l r m}, related q l → related r m →
    Option.Rel related (deque.copyAssign q r) (spec.copyAssign l m)
  moveAssign : ∀ {q l r m}, related q l → related r m →
    Option.Rel (fun first second => related first.1 second.1 ∧ related first.2 second.2)
      (deque.moveAssign q r) (spec.moveAssign l m)

variable {deque : Deque α σ} {spec : Deque α τ} {world : World Name σ}
  {model : World Name τ}

section
variable (agree : Agree related world model) (id : Name)
include agree id

theorem Agree.put (same : Option.Rel related queue list) :
    Agree related (world.put id queue) (model.put id list) := by
  refine ⟨fun other => ?_, agree.results⟩
  simp only [World.put, update_apply]
  split
  · exact same
  · exact agree.queues other

theorem Agree.add (same : Option.Rel related queue list) :
    Option.Rel (Agree related) (world.add id queue) (model.add id list) := by
  have here := agree.queues id
  rw [World.add, World.add]
  generalize world.queues id = mine, model.queues id = theirs at here ⊢
  cases here with
  | none => exact rel_map same fun queue list held => agree.put id (.some held)
  | some => exact .none

theorem Agree.change
    (same : ∀ queue list, related queue list → Option.Rel related (operation queue) (other list)) :
    Option.Rel (Agree related) (world.change id operation) (model.change id other) := by
  refine rel_bind (agree.queues id) fun queue list held => ?_
  exact rel_map (same queue list held) fun next after held => agree.put id (.some held)

theorem Agree.report
    (same : ∀ queue list, related queue list →
      Option.Rel (fun first second => related first.1 second.1 ∧ first.2 = second.2) (operation queue) (other list)) :
    Option.Rel (Agree related) (world.report id operation) (model.report id other) := by
  refine rel_bind (agree.queues id) fun queue list held => ?_
  refine rel_map (same queue list held) fun first second both => ?_
  refine ⟨(agree.put id (.some both.1)).queues, ?_⟩
  rw [both.2, agree.results]

end

/-- What one step of the implementation does, the other does as well. -/
theorem Follows.step (follows : Follows related deque spec) (agree : Agree related world model)
    (action : Action Name α) :
    Option.Rel (Agree related) (Deque.step deque world action) (Deque.step spec model action) := by
  cases action with
  | construct id => exact agree.add id (.some follows.construct)
  | destroy id =>
    refine rel_bind (agree.queues id) fun queue list held => ?_
    exact rel_map (follows.destroy held) fun _ _ _ => agree.put id .none
  | pushBack id value => exact agree.report id fun _ _ held => follows.pushBack held value
  | pushFront id value => exact agree.report id fun _ _ held => follows.pushFront held value
  | popBack id => exact agree.change id fun _ _ held => follows.popBack held
  | popFront id => exact agree.change id fun _ _ held => follows.popFront held
  | insert id index value => exact agree.report id fun _ _ held => follows.insert held index value
  | remove id index => exact agree.change id fun _ _ held => follows.remove held index
  | clear id => exact agree.change id fun _ _ held => follows.clear held
  | copyConstruct id source =>
    refine rel_bind (agree.queues source) fun other list held => ?_
    exact agree.add id (follows.copyConstruct held)
  | moveConstruct id source =>
    refine rel_bind (agree.queues source) fun other list held => ?_
    refine rel_bind (follows.moveConstruct held) fun first second both => ?_
    refine rel_map (agree.add id (.some both.1)) fun world model agree => ?_
    exact agree.put source (.some both.2)
  | copyAssign id source =>
    by_cases itself : id = source
    · rw [Deque.step, Deque.step, if_pos itself, if_pos itself]
      exact agree.change id fun _ _ held => .some held
    · rw [Deque.step, Deque.step, if_neg itself, if_neg itself]
      refine rel_bind (agree.queues source) fun other list held => ?_
      exact agree.change id fun _ _ own => follows.copyAssign own held
  | moveAssign id source =>
    by_cases itself : id = source
    · rw [Deque.step, Deque.step, if_pos itself, if_pos itself]
      exact agree.change id fun _ _ held => .some held
    · rw [Deque.step, Deque.step, if_neg itself, if_neg itself]
      refine rel_bind (agree.queues source) fun other list held => ?_
      refine rel_bind (agree.queues id) fun queue own both => ?_
      refine rel_map (follows.moveAssign both held) fun first second moved => ?_
      exact (agree.put id (.some moved.1)).put source (.some moved.2)

/-- The two agree after every run, or fail in the same step. -/
theorem Follows.run (follows : Follows related deque spec) (actions : List (Action Name α)) :
    Option.Rel (Agree related) (Runs.run (Deque.step deque) World.empty actions)
      (Runs.run (Deque.step spec) World.empty actions) :=
  run_rel (fun _ _ action _ agree => follows.step agree action) ⟨fun _ => .none, rfl⟩

end

section
variable {α : Type}

/-- Insertion into a list with so many elements at most. -/
def bounded (capacity : Nat) (list longer : List α) : List α × Bool :=
  if list.length < capacity then (longer, true) else (list, false)

/-- A double-ended queue is a list of bounded length. -/
def boundedList (α : Type) (capacity : Nat) : Deque α (List α) where
  construct := []
  destroy _ := some ()
  pushBack list value := some (bounded capacity list (list ++ [value]))
  pushFront list value := some (bounded capacity list (value :: list))
  popBack list := if list = [] then none else some list.dropLast
  popFront list := if list = [] then none else some list.tail
  insert list index value :=
    if 0 ≤ index ∧ index ≤ list.length then some (bounded capacity list (list.insertIdx index.toNat value)) else none
  remove list index :=
    if 0 ≤ index ∧ index < list.length then some (list.eraseIdx index.toNat) else none
  clear _ := some []
  copyConstruct other := some other
  moveConstruct other := some (other, [])
  copyAssign _ other := some other
  moveAssign _ other := some (other, [])

end

end Deque

end FlapjackOS
