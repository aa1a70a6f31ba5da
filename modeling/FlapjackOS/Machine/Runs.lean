/-! Runs of a machine whose steps may fail, under a rule that says which action
is allowed in which state. -/

namespace FlapjackOS.Runs

variable {State Action : Type} {step : State → Action → Option State}
  {Allowed : State → Action → Prop} {state : State} {actions more : List Action}
  {Invariant : State → Prop}

/-- Perform the actions in order. -/
def run (step : State → Action → Option State) (state : State) : List Action → Option State
  | [] => some state
  | action :: rest => (step state action).bind (fun next => run step next rest)

theorem run_append (state : State) (actions more : List Action) :
    run step state (actions ++ more) = (run step state actions).bind (fun next => run step next more) := by
  induction actions generalizing state with
  | nil => rfl
  | cons action rest ih =>
    cases stepped : step state action with
    | none => simp [run, stepped]
    | some next => simp [run, stepped, ih]

/-- Each action is allowed in the state that the actions before it lead to. -/
def Legal (step : State → Action → Option State) (Allowed : State → Action → Prop) (state : State) :
    List Action → Prop
  | [] => True
  | action :: rest =>
    Allowed state action ∧ ∀ next, step state action = some next → Legal step Allowed next rest

instance Legal.decidable [∀ state action, Decidable (Allowed state action)] (state : State) :
    ∀ actions, Decidable (Legal step Allowed state actions)
  | [] => .isTrue trivial
  | action :: rest =>
    match stepped : step state action with
    | none => decidable_of_iff (Allowed state action) (by simp [Legal, stepped])
    | some next =>
      have := Legal.decidable next rest
      decidable_of_iff (Allowed state action ∧ Legal step Allowed next rest) (by simp [Legal, stepped])

theorem legal_of_forall {Proper : Action → Prop} (proper : ∀ action ∈ actions, Proper action) :
    Legal step (fun _ => Proper) state actions := by
  induction actions generalizing state with
  | nil => trivial
  | cons action rest ih =>
    refine ⟨proper action List.mem_cons_self, fun next _ => ih fun other member => ?_⟩
    exact proper other (List.mem_cons_of_mem _ member)

/-- Where it is the action alone that decides whether a step succeeds, a run succeeds if
every one of its actions does. -/
theorem run_isSome_iff {Good : Action → Prop}
    (keeps : ∀ state action next, action ∈ actions → Invariant state →
      step state action = some next → Invariant next)
    (succeeds : ∀ state action, action ∈ actions → Invariant state →
      ((step state action).isSome ↔ Good action))
    (held : Invariant state) : (run step state actions).isSome ↔ ∀ action ∈ actions, Good action := by
  induction actions generalizing state with
  | nil => simp [run]
  | cons action rest ih =>
    rw [List.forall_mem_cons, ← succeeds state action List.mem_cons_self held, run]
    cases stepped : step state action with
    | none => simp
    | some next =>
      have kept := keeps state action next List.mem_cons_self held stepped
      rw [Option.bind_some, Option.isSome_some, eq_self, true_and]
      exact ih (fun state action next member => keeps state action next (List.mem_cons_of_mem _ member))
        (fun state action member => succeeds state action (List.mem_cons_of_mem _ member)) kept

theorem legal_append : Legal step Allowed state (actions ++ more) ↔
    Legal step Allowed state actions ∧
      ∀ final, run step state actions = some final → Legal step Allowed final more := by
  induction actions generalizing state with
  | nil => simp [Legal, run]
  | cons action rest ih =>
    rw [List.cons_append, Legal, Legal, and_assoc]
    refine and_congr_right fun _ => ?_
    constructor
    · intro later
      refine ⟨fun next stepped => (ih.mp (later next stepped)).1, fun final ran => ?_⟩
      obtain ⟨next, stepped, ran⟩ := Option.bind_eq_some_iff.mp ran
      exact (ih.mp (later next stepped)).2 final ran
    · rintro ⟨legal, later⟩ next stepped
      refine ih.mpr ⟨legal next stepped, fun final ran => later final ?_⟩
      exact Option.bind_eq_some_iff.mpr ⟨next, stepped, ran⟩

/-- What every allowed step that succeeds preserves holds after every legal run that succeeds. -/
theorem legal_preserves {final : State}
    (keeps : ∀ state action next, Invariant state → Allowed state action →
      step state action = some next → Invariant next)
    (legal : Legal step Allowed state actions) (held : Invariant state)
    (ran : run step state actions = some final) : Invariant final := by
  induction actions generalizing state with
  | nil =>
    cases ran
    exact held
  | cons action rest ih =>
    obtain ⟨allowed, later⟩ := legal
    obtain ⟨next, stepped, ran⟩ := Option.bind_eq_some_iff.mp ran
    exact ih (later next stepped) (keeps state action next held allowed stepped) ran

/-- What every step that succeeds preserves holds after every run that succeeds. -/
theorem run_preserves {final : State}
    (keeps : ∀ state action next, action ∈ actions → Invariant state →
      step state action = some next → Invariant next)
    (held : Invariant state) (ran : run step state actions = some final) : Invariant final := by
  refine legal_preserves (fun state action next held member stepped => ?_) (legal_of_forall fun _ => id) held ran
  exact keeps state action next member held stepped

/-- Two rules that agree where the invariant holds allow the same of the runs that are
possible, if what they allow keeps the invariant. -/
theorem legal_iff_legal_of_possible {Possible Other : State → Action → Prop}
    (keeps : ∀ state action next, Invariant state → Possible state action → Other state action →
      step state action = some next → Invariant next)
    (same : ∀ state action, Invariant state → Possible state action →
      (Allowed state action ↔ Other state action))
    (possible : Legal step Possible state actions) (held : Invariant state) :
    Legal step Allowed state actions ↔ Legal step Other state actions := by
  induction actions generalizing state with
  | nil => rfl
  | cons action rest ih =>
    obtain ⟨here, later⟩ := possible
    rw [Legal, Legal, same state action held here]
    refine and_congr_right fun other => forall_congr' fun next => forall_congr' fun stepped => ?_
    exact ih (later next stepped) (keeps state action next held here other stepped)

/-- Two rules that agree where the invariant holds allow the same runs. -/
theorem legal_iff_legal {Other : State → Action → Prop}
    (keeps : ∀ state action next, Invariant state → step state action = some next → Invariant next)
    (same : ∀ state action, Invariant state → (Allowed state action ↔ Other state action))
    (held : Invariant state) :
    Legal step Allowed state actions ↔ Legal step Other state actions := by
  have possible : Legal step (fun _ _ => True) state actions := legal_of_forall fun _ _ => trivial
  refine legal_iff_legal_of_possible (fun state action next held _ _ => ?_) (fun state action held _ => ?_)
    possible held
  · exact keeps state action next held
  · exact same state action held

/-- No step fails, and the start and every state reached are good. -/
def Always (step : State → Action → Option State) (Good : State → Prop) (state : State) :
    List Action → Prop
  | [] => Good state
  | action :: rest =>
    Good state ∧ ∃ next, step state action = some next ∧ Always step Good next rest

theorem Always.start {Good : State → Prop} (always : Always step Good state actions) : Good state := by
  cases actions with
  | nil => exact always
  | cons action rest => exact always.1

theorem Always.run {Good : State → Prop} (always : Always step Good state actions) :
    ∃ final, Runs.run step state actions = some final ∧ Good final := by
  induction actions generalizing state with
  | nil => exact ⟨state, rfl, always⟩
  | cons action rest ih =>
    obtain ⟨_, next, stepped, later⟩ := always
    obtain ⟨final, ran, good⟩ := ih later
    exact ⟨final, by simp [Runs.run, stepped, ran], good⟩

/-- No legal run fails or reaches a bad state, if allowed steps keep the invariant. -/
theorem always_of_legal {Invariant Good : State → Prop}
    (good : ∀ state, Invariant state → Good state)
    (progress : ∀ state action, Invariant state → Allowed state action →
      ∃ next, step state action = some next ∧ Invariant next)
    (legal : Legal step Allowed state actions) (held : Invariant state) :
    Always step Good state actions := by
  induction actions generalizing state with
  | nil => exact good state held
  | cons action rest ih =>
    obtain ⟨allowed, later⟩ := legal
    obtain ⟨next, stepped, kept⟩ := progress state action held allowed
    exact ⟨good state held, next, stepped, ih (later next stepped) kept⟩

/-- An invariant that every allowed step preserves holds after every legal run,
and no legal run fails. -/
theorem run_invariant
    (progress : ∀ state action, Invariant state → Allowed state action →
      ∃ next, step state action = some next ∧ Invariant next)
    (legal : Legal step Allowed state actions) (held : Invariant state) :
    ∃ final, run step state actions = some final ∧ Invariant final :=
  (always_of_legal (fun _ invariant => invariant) progress legal held).run

/-- Among the runs that are possible, the good ones are those whose actions are all
allowed, if allowed steps keep the invariant and all others lead to a bad state. -/
theorem always_iff_legal {Invariant Good : State → Prop} {Possible : State → Action → Prop}
    (good : ∀ state, Invariant state → Good state)
    (progress : ∀ state action, Invariant state → Possible state action → Allowed state action →
      ∃ next, step state action = some next ∧ Invariant next)
    (violation : ∀ state action next, Invariant state → Possible state action →
      ¬ Allowed state action → step state action = some next → ¬ Good next)
    (possible : Legal step Possible state actions) (held : Invariant state) :
    Always step Good state actions ↔ Legal step Allowed state actions := by
  induction actions generalizing state with
  | nil => exact iff_of_true (good state held) trivial
  | cons action rest ih =>
    obtain ⟨here, later⟩ := possible
    constructor
    · rintro ⟨_, next, stepped, always⟩
      have allowed : Allowed state action := Classical.byContradiction fun denied =>
        violation state action next held here denied stepped always.start
      obtain ⟨other, same, kept⟩ := progress state action held here allowed
      cases stepped.symm.trans same
      refine ⟨allowed, fun other same => ?_⟩
      cases stepped.symm.trans same
      exact (ih (later next stepped) kept).mp always
    · rintro ⟨allowed, legal⟩
      obtain ⟨next, stepped, kept⟩ := progress state action held here allowed
      refine ⟨good state held, next, stepped, ?_⟩
      exact (ih (later next stepped) kept).mpr (legal next stepped)

end FlapjackOS.Runs
