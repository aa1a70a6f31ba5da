import FlapjackOS.Machine.Runs
import Mathlib.Logic.Function.Iterate

/-! `spin_lock` and `spin_unlock` on one word, interleaved in any way. -/

namespace FlapjackOS.Sync.SpinLock

open Function Runs

/-- Where a thread is: outside `spin_lock`, in front of the exchange, in front of the read of the
word in the inner loop, or in front of its `pause`. -/
inductive Point where
  | outside
  | exchange
  | read
  | pause
  deriving DecidableEq, Repr

structure State (Thread : Type) where
  word : Int
  points : Thread → Point

inductive Action (Thread : Type) where
  | call (thread : Thread)
  | advance (thread : Thread)
  | unlock (thread : Thread)

variable {Thread : Type} [DecidableEq Thread] {state : State Thread} {thread : Thread}

def goto (state : State Thread) (thread : Thread) (point : Point) : State Thread :=
  { state with points := update state.points thread point }

/-- One step of a thread in `spin_lock`. -/
def advance (thread : Thread) (state : State Thread) : State Thread :=
  match state.points thread with
  | .outside => state
  | .exchange => if state.word = 0 then goto { state with word := 1 } thread .outside else goto state thread .read
  | .read => goto state thread (if state.word = 0 then .pause else .exchange)
  | .pause => goto state thread .read

/-- A thread calls the functions from outside, and goes on in `spin_lock` until it returns. -/
def step (state : State Thread) : Action Thread → Option (State Thread)
  | .call thread => if state.points thread = .outside then some (goto state thread .exchange) else none
  | .advance thread => if state.points thread = .outside then none else some (SpinLock.advance thread state)
  | .unlock thread => if state.points thread = .outside then some { state with word := 0 } else none

def start : State Thread := { word := 0, points := fun _ => .outside }

/-- If only this thread goes on, it returns with the lock. -/
def Progresses (state : State Thread) (thread : Thread) : Prop :=
  ∃ steps, let final := (advance thread)^[steps] state
    final.points thread = .outside ∧ final.word = 1

/-- The lock is free, and the thread is in the inner loop. -/
structure Stuck (state : State Thread) (thread : Thread) : Prop where
  free : state.word = 0
  inner : state.points thread = .read ∨ state.points thread = .pause

theorem Stuck.advance (stuck : Stuck state thread) : Stuck (advance thread state) thread := by
  obtain ⟨free, reads | pauses⟩ := stuck
  · exact ⟨by simp [SpinLock.advance, goto, reads, free], .inr (by simp [SpinLock.advance, goto, reads, free])⟩
  · exact ⟨by simp [SpinLock.advance, goto, pauses, free], .inl (by simp [SpinLock.advance, goto, pauses])⟩

/-- As long as the lock stays free, the thread waits. -/
theorem Stuck.not_progresses (stuck : Stuck state thread) : ¬ Progresses state thread := by
  rintro ⟨steps, returned, -⟩
  have stays : Stuck ((SpinLock.advance thread)^[steps] state) thread :=
    Iterate.rec (Stuck · thread) stuck (fun _ stuck => stuck.advance) steps
  rcases stays.inner with reads | pauses
  · cases reads.symm.trans returned
  · cases pauses.symm.trans returned

/-- Whatever the threads have done before, a thread in `spin_lock` gets the free lock by its own steps
exactly if it is about to exchange the word. -/
theorem solo_progress_iff (waits : state.points thread ≠ .outside) (free : state.word = 0) :
    Progresses state thread ↔ state.points thread = .exchange := by
  constructor
  · intro progresses
    by_contra other
    refine Stuck.not_progresses ⟨free, ?_⟩ progresses
    cases here : state.points thread <;> simp_all
  · intro exchanges
    exact ⟨1, by simp [advance, goto, exchanges, free], by simp [advance, goto, exchanges, free]⟩

theorem solo_progress_sample :
    ∃ state, run step (start : State (Fin 2)) [.call 0, .advance 0, .call 1, .unlock 0] = some state ∧
      Progresses state 1 :=
  ⟨_, rfl, (solo_progress_iff (by decide) rfl).mpr rfl⟩

/-- Thread 0 unlocks the word when thread 1 has failed to exchange it. -/
theorem waits_for_free_lock :
    ∃ state, run step (start : State (Fin 2)) [.call 0, .advance 0, .call 1, .advance 1, .unlock 0] = some state ∧
      state.points 1 ≠ .outside ∧ state.word = 0 ∧ ¬ Progresses state 1 :=
  ⟨_, rfl, by decide, rfl, Stuck.not_progresses ⟨rfl, .inl rfl⟩⟩

/-- A step, with the threads that have returned from `spin_lock` and have the lock. -/
def track (tracked : State Thread × List Thread) (action : Action Thread) : Option (State Thread × List Thread) := do
  let next ← step tracked.1 action
  return (next, match action with
    | .call _ => tracked.2
    | .advance thread => if next.points thread = .outside then thread :: tracked.2 else tracked.2
    | .unlock thread => tracked.2.erase thread)

/-- Only a thread that has the lock unlocks it. -/
def Proper (tracked : State Thread × List Thread) : Action Thread → Prop
  | .unlock thread => thread ∈ tracked.2
  | _ => True

/-- The word says whether a thread has the lock, and no two have it. -/
def Exclusive (tracked : State Thread × List Thread) : Prop :=
  tracked.1.word = 0 ∧ tracked.2 = [] ∨ tracked.1.word = 1 ∧ ∃ holder, tracked.2 = [holder]

theorem Exclusive.track {tracked next : State Thread × List Thread} {action : Action Thread}
    (exclusive : Exclusive tracked) (proper : Proper tracked action)
    (stepped : track tracked action = some next) : Exclusive next := by
  obtain ⟨after, moved, same⟩ := Option.bind_eq_some_iff.mp stepped
  cases same
  cases action with
  | call thread =>
    cases (Option.ite_none_right_eq_some.mp moved).2
    exact exclusive
  | advance thread =>
    obtain ⟨inside, ⟨⟩⟩ := Option.ite_none_left_eq_some.mp moved
    rcases exclusive with ⟨free, nobody⟩ | ⟨taken, holder, only⟩
    · cases point : tracked.1.points thread <;> simp_all [Exclusive, advance, goto]
    · cases point : tracked.1.points thread <;> simp_all [Exclusive, advance, goto]
  | unlock thread =>
    cases (Option.ite_none_right_eq_some.mp moved).2
    rcases exclusive with ⟨-, nobody⟩ | ⟨-, holder, only⟩ <;> simp_all [Exclusive, Proper]

/-- In every run in which only threads that have the lock unlock it, no two have it. -/
theorem mutual_exclusion (actions : List (Action Thread)) {final : State Thread × List Thread}
    (legal : Legal track Proper (start, []) actions) (ran : run track (start, []) actions = some final) :
    Exclusive final :=
  legal_preserves (fun _ _ _ => Exclusive.track) legal (.inl ⟨rfl, rfl⟩) ran

theorem second_thread_waits : ∃ final, run track ((start : State (Fin 2)), [])
    [.call 0, .advance 0, .call 1, .advance 1] = some final ∧ Exclusive final := by
  refine ⟨_, rfl, mutual_exclusion [.call 0, .advance 0, .call 1, .advance 1] ?_ rfl⟩
  simp [Legal, Proper]

end FlapjackOS.Sync.SpinLock
