import FlapjackOS.Machine.Runs
import Mathlib.Algebra.BigOperators.Group.List.Basic
import Mathlib.Algebra.Ring.Int.Defs

/-! `InterruptLock` on one CPU whose interrupt handlers are entered through trap gates. -/

namespace FlapjackOS.Sync

open Runs

/-- `InterruptLock::count_`, which all locks share, and the interrupt flag. `count` is the value of the
`atomic<int>` as long as fewer than 2 ^ 31 locks are held. -/
structure Interrupts where
  count : Int
  enabled : Bool
  deriving DecidableEq, Repr

namespace Interrupts

section
variable (interrupts : Interrupts)

def fetchAdd : Int × Interrupts :=
  (interrupts.count, { interrupts with count := interrupts.count + 1 })

def fetchSub : Int × Interrupts :=
  (interrupts.count, { interrupts with count := interrupts.count - 1 })

/-- The rest of `lock` after `fetch_add` has returned `old`. -/
def disable (old : Int) : Interrupts :=
  if old = 0 then { interrupts with enabled := false } else interrupts

/-- The rest of `unlock` after `fetch_sub` has returned `old`. -/
def enable (old : Int) : Interrupts :=
  if old = 1 then { interrupts with enabled := true } else interrupts

def lock : Interrupts := interrupts.fetchAdd.2.disable interrupts.fetchAdd.1

def unlock : Interrupts := interrupts.fetchSub.2.enable interrupts.fetchSub.1

end

@[simp] theorem count_lock (interrupts : Interrupts) : interrupts.lock.count = interrupts.count + 1 := by
  unfold lock disable
  split <;> rfl

@[simp] theorem count_unlock (interrupts : Interrupts) :
    interrupts.unlock.count = interrupts.count - 1 := by
  unfold unlock enable
  split <;> rfl

end Interrupts

/-- Where an activation is: outside the lock's functions, or in one of them with the
count that the atomic operation has returned. -/
inductive Point where
  | idle
  | locking (old : Int)
  | unlocking (old : Int)
  deriving DecidableEq, Repr

/-- The base thread or an interrupt handler. `depth` is the number of its calls of `lock`
that have returned and whose matching `unlock` has not begun. -/
structure Activation where
  point : Point
  depth : Nat
  deriving DecidableEq, Repr

namespace Activation

/-- An activation that has nothing to do with locks. -/
def calm : Activation := { point := .idle, depth := 0 }

/-- What the activation adds to the count. -/
def weight (activation : Activation) : Int :=
  match activation.point with
  | .locking _ => activation.depth + 1
  | _ => activation.depth

/-- The activation is not about to change the interrupt flag. -/
def Skips (activation : Activation) : Prop :=
  activation.point ≠ .locking 0 ∧ activation.point ≠ .unlocking 1

end Activation

/-- The activations that have started and not returned, the running one first. -/
structure Cpu where
  interrupts : Interrupts
  stack : List Activation
  deriving DecidableEq, Repr

/-- What can happen next: the running activation calls `lock` or `unlock`, which begins
with the atomic operation, or goes on in it; a handler starts; or a handler returns. -/
inductive Action where
  | lock
  | unlock
  | proceed
  | interrupt
  | iret
  deriving DecidableEq, Repr

namespace Cpu

open Activation

/-- The base thread holds no lock. -/
def start (enabled : Bool) : Cpu where
  interrupts := { count := 0, enabled }
  stack := [calm]

/-- An action that is not possible has no next state. The calls of an activation are balanced:
it calls `unlock` only for a lock that it holds, and a handler that holds one does not return.
A trap gate leaves the interrupt flag as it is, and `iret` restores it. -/
def step (cpu : Cpu) : Action → Option Cpu
  | .lock =>
    match cpu.stack with
    | ⟨.idle, depth⟩ :: rest =>
      let (old, interrupts) := cpu.interrupts.fetchAdd
      some { interrupts, stack := ⟨.locking old, depth⟩ :: rest }
    | _ => none
  | .unlock =>
    match cpu.stack with
    | ⟨.idle, depth + 1⟩ :: rest =>
      let (old, interrupts) := cpu.interrupts.fetchSub
      some { interrupts, stack := ⟨.unlocking old, depth⟩ :: rest }
    | _ => none
  | .proceed =>
    match cpu.stack with
    | ⟨.locking old, depth⟩ :: rest =>
      some { interrupts := cpu.interrupts.disable old, stack := ⟨.idle, depth + 1⟩ :: rest }
    | ⟨.unlocking old, depth⟩ :: rest =>
      some { interrupts := cpu.interrupts.enable old, stack := ⟨.idle, depth⟩ :: rest }
    | _ => none
  | .interrupt =>
    if cpu.interrupts.enabled then some { cpu with stack := calm :: cpu.stack } else none
  | .iret =>
    match cpu.stack with
    | ⟨.idle, 0⟩ :: interrupted :: rest =>
      some { interrupts := { cpu.interrupts with enabled := true }, stack := interrupted :: rest }
    | _ => none

/-- No handler starts while an activation is between the return of `lock` and its `unlock`. -/
def Excludes (cpu : Cpu) : Action → Prop
  | .interrupt => cpu.interrupts.enabled = true → ∀ activation ∈ cpu.stack, activation.depth = 0
  | _ => True

/-- No handler starts while one activation is between the `fetch_add` of the first lock
and `disable_interrupts`, and another one holds a lock. -/
def WindowExcludes (cpu : Cpu) : Action → Prop
  | .interrupt => cpu.interrupts.enabled = true →
    (∃ activation ∈ cpu.stack, activation.point = .locking 0) →
    ∀ activation ∈ cpu.stack, activation.depth = 0
  | _ => True

/-- The states that can be reached. -/
inductive Shape : Cpu → Prop
  /-- Nobody has to do with locks. -/
  | quiet (calms : ∀ activation ∈ below, activation = calm) :
      Shape { interrupts := { count := 0, enabled }, stack := below }
  /-- The owner of the first lock has not disabled interrupts yet. -/
  | window (counted : count = 1 + (above.map weight).sum)
      (skips : ∀ activation ∈ above, activation.Skips)
      (calms : ∀ activation ∈ below, activation = calm) :
      Shape { interrupts := { count, enabled }, stack := above ++ ⟨.locking 0, 0⟩ :: below }
  /-- The owner runs with interrupts disabled. -/
  | owned (counted : count = owner.weight) (skips : owner.Skips) (holds : 0 < owner.depth)
      (calms : ∀ activation ∈ below, activation = calm) :
      Shape { interrupts := { count, enabled := false }, stack := owner :: below }
  /-- The owner has released the last lock and has not enabled interrupts yet. -/
  | releasing (calms : ∀ activation ∈ below, activation = calm) :
      Shape { interrupts := { count := 0, enabled := false }, stack := ⟨.unlocking 1, 0⟩ :: below }

variable {cpu next : Cpu} {action : Action} {actions : List Action} {enabled : Bool}
  {above below rest : List Activation} {owner running : Activation} {count : Int}

/-- Everything that a step can do. -/
theorem step_cases (stepped : cpu.step action = some next) :
    (∃ depth rest, action = .lock ∧ cpu.stack = ⟨.idle, depth⟩ :: rest ∧
      next = { interrupts := cpu.interrupts.fetchAdd.2
               stack := ⟨.locking cpu.interrupts.count, depth⟩ :: rest }) ∨
    (∃ depth rest, action = .unlock ∧ cpu.stack = ⟨.idle, depth + 1⟩ :: rest ∧
      next = { interrupts := cpu.interrupts.fetchSub.2
               stack := ⟨.unlocking cpu.interrupts.count, depth⟩ :: rest }) ∨
    (∃ old depth rest, action = .proceed ∧ cpu.stack = ⟨.locking old, depth⟩ :: rest ∧
      next = { interrupts := cpu.interrupts.disable old, stack := ⟨.idle, depth + 1⟩ :: rest }) ∨
    (∃ old depth rest, action = .proceed ∧ cpu.stack = ⟨.unlocking old, depth⟩ :: rest ∧
      next = { interrupts := cpu.interrupts.enable old, stack := ⟨.idle, depth⟩ :: rest }) ∨
    (action = .interrupt ∧ cpu.interrupts.enabled = true ∧
      next = { cpu with stack := calm :: cpu.stack }) ∨
    (∃ interrupted rest, action = .iret ∧ cpu.stack = calm :: interrupted :: rest ∧
      next = { interrupts := { cpu.interrupts with enabled := true }
               stack := interrupted :: rest }) := by
  obtain ⟨interrupts, stack⟩ := cpu
  cases action with
  | lock =>
    rcases stack with _ | ⟨⟨_ | _ | _, depth⟩, rest⟩ <;> cases stepped
    exact .inl ⟨depth, rest, rfl, rfl, rfl⟩
  | unlock =>
    rcases stack with _ | ⟨⟨_ | _ | _, _ | depth⟩, rest⟩ <;> cases stepped
    exact .inr (.inl ⟨depth, rest, rfl, rfl, rfl⟩)
  | proceed =>
    rcases stack with _ | ⟨⟨_ | old | old, depth⟩, rest⟩ <;> cases stepped
    · exact .inr (.inr (.inl ⟨old, depth, rest, rfl, rfl, rfl⟩))
    · exact .inr (.inr (.inr (.inl ⟨old, depth, rest, rfl, rfl, rfl⟩)))
  | interrupt =>
    simp only [step] at stepped
    split at stepped
    · cases stepped
      exact .inr (.inr (.inr (.inr (.inl ⟨rfl, ‹_›, rfl⟩))))
    · cases stepped
  | iret =>
    rcases stack with _ | ⟨⟨_ | _ | _, _ | _⟩, _ | ⟨interrupted, rest⟩⟩ <;> cases stepped
    exact .inr (.inr (.inr (.inr (.inr ⟨interrupted, rest, rfl, rfl, rfl⟩))))

theorem sum_weight_nonneg (above : List Activation) : 0 ≤ (above.map weight).sum := by
  induction above with
  | nil => simp
  | cons first rest ih =>
    have positive : 0 ≤ first.weight := by
      unfold weight
      split <;> omega
    simp only [List.map_cons, List.sum_cons]
    omega

/-- While the count is not zero, an activation that releases another lock than the last one
does not change the interrupt flag, and neither do handlers that start and return. -/
theorem running_step (skips : running.Skips) (positive : 0 < count)
    (shared : action = .unlock → count ≠ 1)
    (stepped : step { interrupts := { count, enabled }, stack := running :: rest } action =
      some next) :
    (∃ changed : Activation, changed.Skips ∧
      (running.depth ≤ changed.depth ∨ running = ⟨.idle, changed.depth + 1⟩ ∧ action = .unlock) ∧
      next = { interrupts := { count := count - running.weight + changed.weight, enabled }
               stack := changed :: rest }) ∨
    (enabled = true ∧
      next = { interrupts := { count, enabled }, stack := calm :: running :: rest }) ∨
    (∃ interrupted others, running = calm ∧ rest = interrupted :: others ∧
      next = { interrupts := { count, enabled := true }, stack := rest }) := by
  rcases step_cases stepped with ⟨depth, others, _, top, rfl⟩ | ⟨depth, others, rfl, top, rfl⟩ |
    ⟨old, depth, others, _, top, rfl⟩ | ⟨old, depth, others, _, top, rfl⟩ | ⟨_, flag, rfl⟩ |
    ⟨interrupted, others, _, top, rfl⟩
  · cases top
    refine .inl ⟨⟨.locking count, depth⟩, ?_, .inl (Nat.le_refl _), ?_⟩
    · have different : count ≠ 0 := by omega
      simp [Skips, different]
    · simp only [Interrupts.fetchAdd, weight, Cpu.mk.injEq, Interrupts.mk.injEq]
      exact ⟨⟨by omega, trivial⟩, trivial⟩
  · cases top
    refine .inl ⟨⟨.unlocking count, depth⟩, ?_, .inr ⟨rfl, rfl⟩, ?_⟩
    · simp [Skips, shared rfl]
    · simp only [Interrupts.fetchSub, weight, Cpu.mk.injEq, Interrupts.mk.injEq]
      exact ⟨⟨by push_cast; omega, trivial⟩, trivial⟩
  · cases top
    have later : old ≠ 0 := by simpa [Skips] using skips
    refine .inl ⟨⟨.idle, depth + 1⟩, by simp [Skips], .inl (Nat.le_succ _), ?_⟩
    simp [Interrupts.disable, later, weight]
  · cases top
    have earlier : old ≠ 1 := by simpa [Skips] using skips
    refine .inl ⟨⟨.idle, depth⟩, by simp [Skips], .inl (Nat.le_refl _), ?_⟩
    simp [Interrupts.enable, earlier, weight]
  · exact .inr (.inl ⟨flag, rfl⟩)
  · cases top
    exact .inr (.inr ⟨interrupted, others, rfl, rfl, rfl⟩)

/-- The activation that calls `unlock` holds a lock. -/
theorem weight_of_unlock (stepped : step { interrupts := { count, enabled }, stack := running :: rest }
    .unlock = some next) : ∃ depth, running = ⟨.idle, depth + 1⟩ := by
  obtain ⟨_ | _ | _, _ | depth⟩ := running <;> cases stepped
  exact ⟨depth, rfl⟩

/-- The owner closes the window. The handlers that start before it does see a count that
is not zero. -/
theorem shape_window_step (counted : count = 1 + (above.map weight).sum)
    (skips : ∀ activation ∈ above, activation.Skips)
    (calms : ∀ activation ∈ below, activation = calm)
    (stepped : step { interrupts := { count, enabled }, stack := above ++ ⟨.locking 0, 0⟩ :: below }
      action = some next) : Shape next := by
  cases above with
  | nil =>
    subst counted
    rcases step_cases stepped with ⟨depth, rest, _, top, rfl⟩ | ⟨depth, rest, _, top, rfl⟩ |
      ⟨old, depth, rest, _, top, rfl⟩ | ⟨old, depth, rest, _, top, rfl⟩ | ⟨_, _, rfl⟩ |
      ⟨interrupted, rest, _, top, rfl⟩
    · cases top
    · cases top
    · cases top
      have owner : Skips ⟨.idle, 1⟩ := by simp [Skips]
      exact .owned rfl owner Nat.one_pos calms
    · cases top
    · have handler : ∀ activation ∈ [calm], activation.Skips := by simp [Skips, calm]
      exact .window rfl handler calms
    · cases top
  | cons running above =>
    obtain ⟨skipping, others⟩ := List.forall_mem_cons.mp skips
    have positive := sum_weight_nonneg (running :: above)
    have rest := sum_weight_nonneg above
    rw [List.map_cons, List.sum_cons] at positive counted
    have shared : action = .unlock → count ≠ 1 := by
      rintro rfl
      obtain ⟨depth, rfl⟩ := weight_of_unlock stepped
      simp only [weight] at counted
      push_cast at counted
      omega
    rcases running_step skipping (by omega) shared stepped with ⟨changed, skips, _, rfl⟩ |
      ⟨_, rfl⟩ | ⟨interrupted, _, rfl, _, rfl⟩
    · have nested : ∀ activation ∈ changed :: above, activation.Skips :=
        List.forall_mem_cons.mpr ⟨skips, others⟩
      refine .window ?_ nested calms
      rw [List.map_cons, List.sum_cons]
      omega
    · have nested : ∀ activation ∈ calm :: running :: above, activation.Skips :=
        List.forall_mem_cons.mpr ⟨by simp [Skips, calm], List.forall_mem_cons.mpr ⟨skipping, others⟩⟩
      refine .window ?_ nested calms
      simp [counted, weight, calm]
    · refine .window ?_ others calms
      simp [counted, weight, calm]

/-- The owner gives up the last lock with interrupts disabled. -/
theorem shape_owned_step (counted : count = owner.weight) (skips : owner.Skips)
    (holds : 0 < owner.depth) (calms : ∀ activation ∈ below, activation = calm)
    (stepped : step { interrupts := { count, enabled := false }, stack := owner :: below } action =
      some next) : Shape next := by
  by_cases last : action = .unlock ∧ count = 1
  · obtain ⟨rfl, rfl⟩ := last
    obtain ⟨depth, rfl⟩ := weight_of_unlock stepped
    have single : depth = 0 := by
      simp only [weight] at counted
      push_cast at counted
      omega
    subst single
    cases stepped
    exact .releasing calms
  · have positive : 0 < count := by
      rw [counted, weight]
      split <;> omega
    rcases running_step skips positive (fun unlocks single => last ⟨unlocks, single⟩) stepped with
      ⟨changed, skips, deep, rfl⟩ | ⟨impossible, _⟩ | ⟨_, _, rfl, _⟩
    · refine .owned (by omega) skips ?_ calms
      rcases deep with deep | ⟨rfl, rfl⟩
      · omega
      · have several : count ≠ 1 := fun single => last ⟨rfl, single⟩
        simp only [weight] at counted
        push_cast at counted
        omega
    · cases impossible
    · cases holds

theorem Shape.step (shape : Shape cpu) (stepped : cpu.step action = some next) : Shape next := by
  cases shape with
  | quiet calms =>
    rcases step_cases stepped with ⟨depth, rest, _, rfl, rfl⟩ | ⟨depth, rest, _, rfl, rfl⟩ |
      ⟨old, depth, rest, _, rfl, rfl⟩ | ⟨old, depth, rest, _, rfl, rfl⟩ | ⟨_, _, rfl⟩ |
      ⟨interrupted, rest, _, rfl, rfl⟩
    · cases calms _ List.mem_cons_self
      have nobody : ∀ activation ∈ ([] : List Activation), activation.Skips := by simp
      exact .window rfl nobody (fun activation member => calms _ (.tail _ member))
    · cases calms _ List.mem_cons_self
    · cases calms _ List.mem_cons_self
    · cases calms _ List.mem_cons_self
    · exact .quiet (by simpa using calms)
    · exact .quiet (fun activation member => calms _ (.tail _ member))
  | window counted skips calms => exact shape_window_step counted skips calms stepped
  | owned counted skips holds calms => exact shape_owned_step counted skips holds calms stepped
  | releasing calms =>
    rcases step_cases stepped with ⟨depth, rest, _, top, rfl⟩ | ⟨depth, rest, _, top, rfl⟩ |
      ⟨old, depth, rest, _, top, rfl⟩ | ⟨old, depth, rest, _, top, rfl⟩ | ⟨_, impossible, _⟩ |
      ⟨interrupted, rest, _, top, rfl⟩
    · cases top
    · cases top
    · cases top
    · cases top
      exact .quiet (List.forall_mem_cons.mpr ⟨rfl, calms⟩)
    · cases impossible
    · cases top

/-- Outside the window a lock is held only with interrupts disabled. -/
theorem Shape.held (shape : Shape cpu) (enabled : cpu.interrupts.enabled = true)
    (closed : ¬ ∃ activation ∈ cpu.stack, activation.point = .locking 0) :
    ∀ activation ∈ cpu.stack, activation.depth = 0 := by
  cases shape with
  | quiet calms =>
    intro activation member
    rw [calms activation member, calm]
  | window counted skips calms =>
    exact absurd ⟨⟨.locking 0, 0⟩, List.mem_append_right _ List.mem_cons_self, rfl⟩ closed
  | owned counted skips holds calms => cases enabled
  | releasing calms => cases enabled

theorem Shape.excludes_iff (shape : Shape cpu) : Excludes cpu action ↔ WindowExcludes cpu action := by
  cases action with
  | interrupt =>
    refine ⟨fun excludes enabled _ => excludes enabled, fun excludes enabled => ?_⟩
    by_cases opened : ∃ activation ∈ cpu.stack, activation.point = .locking 0
    · exact excludes enabled opened
    · exact shape.held enabled opened
  | lock | unlock | proceed | iret => rfl

/-- Handlers start only while no lock is held, if and only if none starts while a lock is held
above an activation that has raised the count from zero but not yet disabled interrupts. -/
theorem exclusion_iff (enabled : Bool) (actions : List Action) :
    Legal step Excludes (start enabled) actions ↔ Legal step WindowExcludes (start enabled) actions :=
  legal_iff_legal (fun _ _ _ shape stepped => shape.step stepped) (fun _ _ shape => shape.excludes_iff)
    (show Shape (start enabled) from .quiet (by simp))

/-- A first interrupt in the window and a second one in the handler's critical section. -/
theorem handler_starts_in_critical_section :
    ∃ cpu next, run step (start true) [.lock, .interrupt, .lock, .proceed] = some cpu ∧
      cpu.stack = [⟨.idle, 1⟩, ⟨.locking 0, 0⟩] ∧ cpu.step .interrupt = some next ∧
      ¬ Excludes cpu .interrupt := by
  refine ⟨_, _, rfl, rfl, rfl, fun excludes => ?_⟩
  have held := excludes rfl ⟨.idle, 1⟩ List.mem_cons_self
  cases held

end Cpu

end FlapjackOS.Sync
