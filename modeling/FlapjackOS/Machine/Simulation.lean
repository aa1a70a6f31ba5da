import FlapjackOS.Machine.Runs

namespace FlapjackOS.Simulation

open Runs

variable {σ τ Action : Type} {related : σ → τ → Prop} {step : σ → Action → Option σ}
  {spec : τ → Action → Option τ} {state : σ} {abstract : τ} {actions : List Action}
  {first : Option σ} {second : Option τ}

theorem rel_bind {σ' τ' : Type} {related' : σ' → τ' → Prop}
    {f : σ → Option σ'} {g : τ → Option τ'} (firsts : Option.Rel related first second)
    (nexts : ∀ state abstract, related state abstract → Option.Rel related' (f state) (g abstract)) :
    Option.Rel related' (first.bind f) (second.bind g) := by
  cases firsts with
  | none => exact .none
  | some here => exact nexts _ _ here

theorem rel_map {σ' τ' : Type} {related' : σ' → τ' → Prop}
    {f : σ → σ'} {g : τ → τ'} (firsts : Option.Rel related first second)
    (nexts : ∀ state abstract, related state abstract → related' (f state) (g abstract)) :
    Option.Rel related' (first.map f) (second.map g) := by
  cases firsts with
  | none => exact .none
  | some here => exact .some (nexts _ _ here)

theorem rel_mono {weaker : σ → τ → Prop}
    (firsts : Option.Rel related first second)
    (implies : ∀ state abstract, related state abstract → weaker state abstract) :
    Option.Rel weaker first second := by
  cases firsts with
  | none => exact .none
  | some here => exact .some (implies _ _ here)

theorem rel_some_right (firsts : Option.Rel related first (some abstract)) :
    ∃ state, first = some state ∧ related state abstract := by
  cases firsts with
  | some here => exact ⟨_, rfl, here⟩

theorem rel_some_left (firsts : Option.Rel related (some state) second) :
    ∃ abstract, second = some abstract ∧ related state abstract := by
  cases firsts with
  | some here => exact ⟨_, rfl, here⟩

theorem rel_none_right (firsts : Option.Rel related first none) : first = none := by
  cases firsts
  rfl

/-- If every step of the abstract machine can be followed, so can every run. -/
theorem run_forward {final : τ}
    (follows : ∀ state abstract action next, action ∈ actions → related state abstract →
      spec abstract action = some next → ∃ after, step state action = some after ∧ related after next)
    (start : related state abstract) (ran : run spec abstract actions = some final) :
    ∃ after, run step state actions = some after ∧ related after final := by
  induction actions generalizing state abstract with
  | nil =>
    cases ran
    exact ⟨state, rfl, start⟩
  | cons action rest ih =>
    obtain ⟨next, stepped, ran⟩ := Option.bind_eq_some_iff.mp ran
    obtain ⟨middle, moved, relatedNext⟩ :=
      follows state abstract action next List.mem_cons_self start stepped
    obtain ⟨after, rest_ran, result⟩ := ih (fun state abstract action next member =>
      follows state abstract action next (List.mem_cons_of_mem _ member)) relatedNext ran
    exact ⟨after, by simp [run, moved, rest_ran], result⟩

variable (steps : ∀ state abstract action, action ∈ actions → related state abstract →
  Option.Rel related (step state action) (spec abstract action))
include steps

theorem run_rel (start : related state abstract) :
    Option.Rel related (run step state actions) (run spec abstract actions) := by
  induction actions generalizing state abstract with
  | nil => exact .some start
  | cons action rest ih =>
    refine rel_bind (steps state abstract action List.mem_cons_self start) fun _ _ next => ?_
    refine ih (fun state abstract action member => ?_) next
    exact steps state abstract action (List.mem_cons_of_mem _ member)

end FlapjackOS.Simulation
