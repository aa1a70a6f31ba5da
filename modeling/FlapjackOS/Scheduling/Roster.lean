import FlapjackOS.Machine.Runs
import FlapjackOS.Scheduling.Scheduler
import Mathlib.Data.List.Rotate
import Mathlib.Data.List.InsertIdx

namespace FlapjackOS.Scheduling

/-- A pointer that is not null. -/
structure Owned (Thread : Type) where
  thread : Thread
  shouldLeak : Bool
  deriving DecidableEq, Repr

namespace Owned

variable {Thread : Type}

def pointer (owned : Owned Thread) : UniquePointer Thread where
  data := some owned.thread
  shouldLeak := owned.shouldLeak

/-- The thread that is deleted with the pointer. -/
def release (owned : Owned Thread) : List Thread :=
  if owned.shouldLeak then [] else [owned.thread]

end Owned

/-- The scheduler with lists for its vectors. -/
structure Roster (Thread : Type) where
  current : Option (Owned Thread)
  runnable : List (Owned Thread)
  exhausted : List (Owned Thread)
  destroyed : List Thread

namespace Roster

variable {Thread : Type}

def initial : Roster Thread where
  current := none
  runnable := []
  exhausted := []
  destroyed := []

section
variable (roster : Roster Thread)

def add (thread : Owned Thread) : Roster Thread :=
  { roster with runnable := roster.runnable ++ [thread] }

def begin (initThread : Owned Thread) : Roster Thread :=
  { roster with
    current := some initThread
    destroyed := roster.destroyed ++ (roster.current.map Owned.release).getD [] }

/-- The exhausted threads become runnable when there are no others. -/
def refill : Roster Thread :=
  if roster.runnable = [] then { roster with runnable := roster.exhausted, exhausted := [] }
  else roster

def yield : Roster Thread × Option (Switch Thread) :=
  match roster.current, roster.refill.runnable with
  | some current, next :: rest =>
    ({ roster with
        current := some next
        runnable := rest
        exhausted := roster.refill.exhausted ++ [current] },
      some { outgoing := current.thread, incoming := next.thread })
  | _, _ => (roster, none)

def vanish : Option (Roster Thread × Switch Thread) :=
  match roster.current, roster.refill.runnable with
  | some current, next :: rest =>
    some ({ current := some next
            runnable := rest
            exhausted := roster.refill.exhausted
            destroyed := roster.destroyed ++ current.release },
      { outgoing := current.thread, incoming := next.thread })
  | _, _ => none

/-- The threads that wait for their turn, in the order in which they will get it. -/
def waiting : List (Owned Thread) := roster.runnable ++ roster.exhausted

end

section
variable (roster : Roster Thread)
include roster

theorem refill_current : roster.refill.current = roster.current := by
  unfold refill
  split <;> rfl

theorem refill_destroyed : roster.refill.destroyed = roster.destroyed := by
  unfold refill
  split <;> rfl

theorem waiting_refill : roster.refill.waiting = roster.waiting := by
  unfold refill
  split
  · rename_i nobody
    simp [waiting, nobody]
  · rfl

theorem refill_runnable_eq_nil : roster.refill.runnable = [] ↔ roster.waiting = [] := by
  unfold refill waiting
  split
  · rename_i nobody
    simp [nobody]
  · rename_i somebody
    simp [somebody]

/-- The head of the refilled queue is the head of the waiting threads. -/
theorem refill_cases :
    roster.waiting = [] ∧ roster.refill.runnable = [] ∨
    ∃ next rest, roster.refill.runnable = next :: rest ∧
      roster.waiting = next :: (rest ++ roster.refill.exhausted) := by
  rw [← waiting_refill, waiting]
  cases runnable : roster.refill.runnable with
  | nil =>
    have nobody := (refill_runnable_eq_nil roster).mp runnable
    rw [← waiting_refill, waiting, runnable] at nobody
    exact .inl ⟨nobody, rfl⟩
  | cons next rest => exact .inr ⟨next, rest, rfl, rfl⟩

/-- Either there is nobody to yield to, or the head of the waiting threads becomes current
and the current thread the last of them. -/
theorem yield_cases :
    (roster.current = none ∨ roster.waiting = []) ∧ roster.yield = (roster, none) ∨
    ∃ current next rest after, roster.current = some current ∧ roster.waiting = next :: rest ∧
      roster.yield = (after, some { outgoing := current.thread, incoming := next.thread }) ∧
      after.current = some next ∧ after.waiting = rest ++ [current] ∧
      after.destroyed = roster.destroyed := by
  unfold yield
  cases roster.current with
  | none => exact .inl ⟨.inl rfl, rfl⟩
  | some current =>
    rcases roster.refill_cases with ⟨nobody, runnable⟩ | ⟨next, rest, runnable, waits⟩ <;> rw [runnable]
    · exact .inl ⟨.inr nobody, rfl⟩
    · refine .inr ⟨current, next, _, _, rfl, waits, rfl, rfl, ?_, rfl⟩
      simp [waiting]

theorem vanish_cases :
    (roster.current = none ∨ roster.waiting = []) ∧ roster.vanish = none ∨
    ∃ current next rest after, roster.current = some current ∧ roster.waiting = next :: rest ∧
      roster.vanish = some (after, { outgoing := current.thread, incoming := next.thread }) ∧
      after.current = some next ∧ after.waiting = rest ∧
      after.destroyed = roster.destroyed ++ current.release := by
  unfold vanish
  cases roster.current with
  | none => exact .inl ⟨.inl rfl, rfl⟩
  | some current =>
    rcases roster.refill_cases with ⟨nobody, runnable⟩ | ⟨next, rest, runnable, waits⟩ <;> rw [runnable]
    · exact .inl ⟨.inr nobody, rfl⟩
    · exact .inr ⟨current, next, _, _, rfl, waits, rfl, rfl, rfl, rfl⟩

end

end Roster

namespace SchedulerUnlocked

variable {Thread : Type} {scheduler after : SchedulerUnlocked Thread} {roster : Roster Thread}
  {next current : Owned Thread} {rest : List (Owned Thread)}

/-- The pointer `current_thread_` of a roster. -/
def currentPointer (current : Option (Owned Thread)) : UniquePointer Thread :=
  (current.map Owned.pointer).getD .null

/-- The vectors hold the threads of the lists, and no null pointers. -/
structure Represents (scheduler : SchedulerUnlocked Thread) (roster : Roster Thread) : Prop where
  current : scheduler.currentThread = currentPointer roster.current
  runnable : scheduler.runnable.Holds (roster.runnable.map Owned.pointer)
  exhausted : scheduler.exhausted.Holds (roster.exhausted.map Owned.pointer)
  destroyed : scheduler.destroyed = roster.destroyed

theorem represents_initial : Represents (initial : SchedulerUnlocked Thread) Roster.initial :=
  ⟨rfl, Vector.holds_nil, Vector.holds_nil, rfl⟩

theorem currentPointer_release (current : Option (Owned Thread)) :
    (currentPointer current).release = (current.map Owned.release).getD [] := by
  cases current <;> rfl

theorem discard_nil : scheduler.discard [] = scheduler := by
  simp [discard]

section
variable (represents : scheduler.Represents roster)
include represents

theorem Represents.add (thread : Owned Thread) :
    ∃ after, scheduler.add thread.pointer = some after ∧ after.Represents (roster.add thread) := by
  obtain ⟨runnable, pushed, holds⟩ := represents.runnable.emplaceBack thread.pointer
  refine ⟨{ scheduler with runnable }, ?_, represents.current, ?_, represents.exhausted,
    represents.destroyed⟩
  · simp [SchedulerUnlocked.add, pushed, discard_nil]
  · simpa [Roster.add] using holds

theorem Represents.begin (thread : Owned Thread) :
    (scheduler.begin thread.pointer).Represents (roster.begin thread) := by
  refine ⟨rfl, represents.runnable, represents.exhausted, ?_⟩
  simp [SchedulerUnlocked.begin, setCurrentThread, Roster.begin, represents.destroyed,
    represents.current, currentPointer_release]

theorem Represents.canYield_iff :
    scheduler.canYield = true ↔ roster.current ≠ none ∧ roster.waiting ≠ [] := by
  have runs : scheduler.currentThread.data.isSome = true ↔ roster.current ≠ none := by
    rw [represents.current]
    cases roster.current <;> simp [currentPointer, Owned.pointer, UniquePointer.null,
      UniquePointer.ofPointer]
  have waits : (scheduler.runnable.empty && scheduler.exhausted.empty) = true ↔
      roster.waiting = [] := by
    simp [represents.runnable.empty_iff, represents.exhausted.empty_iff, Roster.waiting]
  rw [SchedulerUnlocked.canYield, Bool.and_eq_true, runs, Bool.not_eq_true', ← Bool.not_eq_true, waits]

theorem Represents.swap (somebody : roster.waiting ≠ []) :
    ∃ after, scheduler.swapRunnableAndExhaustedIfNecessary = some after ∧
      after.Represents roster.refill := by
  have waits : ¬ (scheduler.runnable.empty && scheduler.exhausted.empty) = true := by
    simpa [represents.runnable.empty_iff, represents.exhausted.empty_iff, Roster.waiting]
      using somebody
  by_cases nobody : roster.runnable = []
  · have drained : scheduler.runnable.empty = true := by
      simpa [represents.runnable.empty_iff] using nobody
    refine ⟨{ scheduler with runnable := scheduler.exhausted, exhausted := scheduler.runnable },
      by simp_all [swapRunnableAndExhaustedIfNecessary], ?_⟩
    have holds := represents.runnable
    rw [nobody] at holds
    simp only [Roster.refill, nobody, if_true]
    exact ⟨represents.current, represents.exhausted, holds, represents.destroyed⟩
  · have filled : ¬ scheduler.runnable.empty = true := by
      simpa [represents.runnable.empty_iff] using nobody
    refine ⟨scheduler, by simp_all [swapRunnableAndExhaustedIfNecessary], ?_⟩
    simpa only [Roster.refill, nobody, if_false] using represents

/-- Whatever was current is deleted when the next thread takes its place. -/
theorem Represents.take (runnable : roster.runnable = next :: rest) :
    ∃ after, scheduler.takeCurrentThreadFromRunnableQueue = some after ∧
      after.Represents
        { roster with
          current := some next
          runnable := rest
          destroyed := roster.destroyed ++ (roster.current.map Owned.release).getD [] } := by
  have holds := represents.runnable
  rw [runnable, List.map_cons] at holds
  obtain ⟨popped, gone, pop, left, moved⟩ := (holds.setFront .null).popFront
  -- pointers that have been moved from delete nothing
  have nothing : gone.flatMap UniquePointer.release = [] := by
    rw [List.flatMap_eq_nil_iff]
    intro pointer member
    rcases moved pointer member with rfl | ⟨_, rfl⟩ <;> rfl
  refine ⟨{ scheduler.setCurrentThread next.pointer with runnable := popped }, ?_, rfl, left,
    represents.exhausted, ?_⟩
  · simp [takeCurrentThreadFromRunnableQueue, holds.front, pop, discard, nothing]
  · simp [setCurrentThread, represents.current, represents.destroyed, currentPointer_release]

theorem Represents.moveToNext (runs : roster.current = some current)
    (runnable : roster.runnable = next :: rest) :
    ∃ after, scheduler.moveToNextRunnableThread = some after ∧
      after.Represents
        { roster with
          current := some next
          runnable := rest
          exhausted := roster.exhausted ++ [current] } := by
  have filled : ¬ scheduler.runnable.empty = true := by
    simp [represents.runnable.empty_iff, runnable]
  obtain ⟨exhausted, pushed, holds⟩ :=
    represents.exhausted.emplaceBack scheduler.currentThread
  have moved : ({ scheduler with exhausted, currentThread := .null }).Represents
      { roster with current := none, exhausted := roster.exhausted ++ [current] } := by
    refine ⟨rfl, represents.runnable, ?_, represents.destroyed⟩
    simpa [represents.current, runs, currentPointer] using holds
  obtain ⟨after, taken, result⟩ := moved.take runnable
  refine ⟨after, ?_, by simpa using result⟩
  simp [moveToNextRunnableThread, filled, pushed, discard_nil, taken]

theorem Represents.outgoing (runs : roster.current = some current) :
    scheduler.currentThread.data = some current.thread := by
  rw [represents.current, runs]
  rfl

theorem Represents.switchAway (runs : roster.current = some next) (previousThread : Thread) :
    scheduler.switchAway previousThread =
      some (scheduler, { outgoing := previousThread, incoming := next.thread }) := by
  simp [SchedulerUnlocked.switchAway, represents.outgoing runs]

theorem Represents.yield :
    ∃ after, scheduler.yield = some (after, roster.yield.2) ∧ after.Represents roster.yield.1 := by
  by_cases can : scheduler.canYield = true
  · obtain ⟨runs, waits⟩ := represents.canYield_iff.mp can
    obtain ⟨current, runs⟩ := Option.ne_none_iff_exists'.mp runs
    obtain ⟨swapped, swap, refilled⟩ := represents.swap waits
    obtain ⟨next, rest, runnable⟩ :=
      List.exists_cons_of_ne_nil (mt (roster.refill_runnable_eq_nil).mp waits)
    obtain ⟨after, moved, result⟩ :=
      refilled.moveToNext (roster.refill_current.trans runs) runnable
    refine ⟨after, ?_, ?_⟩
    · simp [SchedulerUnlocked.yield, can, represents.outgoing runs, swap, moved, result.switchAway rfl, Roster.yield,
        runs, runnable]
    · simpa [Roster.yield, runs, runnable, roster.refill_destroyed] using result
  · have stays : roster.yield = (roster, none) := by
      have alone := mt represents.canYield_iff.mpr can
      unfold Roster.yield
      split
      · rename_i current next rest runs runnable
        refine absurd ⟨by simp [runs], ?_⟩ alone
        rw [ne_eq, ← roster.refill_runnable_eq_nil, runnable]
        simp
      · rfl
    exact ⟨scheduler, by simp [SchedulerUnlocked.yield, can, stays], by rwa [stays]⟩

theorem Represents.vanish :
    Option.Rel (fun (after, switch) (next, change) => after.Represents next ∧ switch = change)
      scheduler.vanish roster.vanish := by
  cases runs : roster.current with
  | none =>
    have missing : scheduler.currentThread.data = none := by
      rw [represents.current, runs]
      rfl
    simp only [SchedulerUnlocked.vanish, missing, Roster.vanish, runs]
    exact .none
  | some current =>
    have outgoing := represents.outgoing runs
    by_cases waits : roster.waiting = []
    · have alone : scheduler.swapRunnableAndExhaustedIfNecessary = none := by
        have := List.append_eq_nil_iff.mp waits
        simp [swapRunnableAndExhaustedIfNecessary, represents.runnable.empty_iff,
          represents.exhausted.empty_iff, this]
      have nobody := roster.refill_runnable_eq_nil.mpr waits
      simp only [SchedulerUnlocked.vanish, outgoing, alone, Roster.vanish, runs, nobody]
      exact .none
    · obtain ⟨swapped, swap, refilled⟩ := represents.swap waits
      obtain ⟨next, rest, runnable⟩ :=
        List.exists_cons_of_ne_nil (mt roster.refill_runnable_eq_nil.mp waits)
      obtain ⟨after, taken, result⟩ := refilled.take runnable
      have switched := result.switchAway rfl current.thread
      simp only [SchedulerUnlocked.vanish, outgoing, swap, taken, switched, Roster.vanish, runs,
        runnable, Option.bind_eq_bind, Option.bind_some]
      refine .some ⟨?_, rfl⟩
      simpa [roster.refill_current, roster.refill_destroyed, runs] using result

end

end SchedulerUnlocked

end FlapjackOS.Scheduling
