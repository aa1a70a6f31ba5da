import FlapjackOS.Machine.Lists
import FlapjackOS.Machine.Simulation
import FlapjackOS.Scheduling.Roster

namespace FlapjackOS.Scheduling

open Runs
open scoped List

/-- A call that is made after `begin`. -/
inductive Call (Thread : Type) where
  | add (thread : Owned Thread)
  | yield
  | vanish
  deriving DecidableEq, Repr

namespace SchedulerUnlocked

variable {Thread : Type} {scheduler after : SchedulerUnlocked Thread} {roster : Roster Thread}
  {call : Call Thread} {calls : List (Call Thread)}

def perform (scheduler : SchedulerUnlocked Thread) : Call Thread → Option (SchedulerUnlocked Thread)
  | .add thread => scheduler.add thread.pointer
  | .yield => scheduler.yield.map Prod.fst
  | .vanish => scheduler.vanish.map Prod.fst

/-- `current_thread_`, then `runnable_`, then `exhausted_`. A null pointer is `none`. -/
def queue (scheduler : SchedulerUnlocked Thread) : List (Option Thread) :=
  scheduler.currentThread.data ::
    (scheduler.runnable.elements ++ scheduler.exhausted.elements).map UniquePointer.data

/-- `vanish` is called only when another thread exists. -/
def OtherExists (scheduler : SchedulerUnlocked Thread) : Call Thread → Prop
  | .vanish => 2 ≤ scheduler.queue.length
  | _ => True

instance (call : Call Thread) : Decidable (OtherExists scheduler call) :=
  match call with
  | .vanish => inferInstanceAs (Decidable (_ ≤ _))
  | .add _ | .yield => inferInstanceAs (Decidable True)

/-- What a call is to do with the queue. -/
def queueAfter (scheduler : SchedulerUnlocked Thread) : Call Thread → List (Option Thread)
  | .add thread => scheduler.queue.insertIdx (scheduler.runnable.count + 1) (some thread.thread)
  | .yield => scheduler.queue.rotate 1
  | .vanish => scheduler.queue.tail

/-- The threads handed to the scheduler by these calls. -/
def added (calls : List (Call Thread)) : List (Option Thread) :=
  calls.flatMap fun
    | .add thread => [some thread.thread]
    | _ => []

/-- The thread that calls `vanish`. -/
def dropped (scheduler : SchedulerUnlocked Thread) : Call Thread → List (Option Thread)
  | .vanish => [scheduler.currentThread.data]
  | _ => []

/-- The threads that have called `vanish`. -/
def vanished (scheduler : SchedulerUnlocked Thread) : List (Call Thread) → List (Option Thread)
  | [] => []
  | call :: rest =>
    scheduler.dropped call ++ ((scheduler.perform call).map (fun next => next.vanished rest)).getD []

/-- The vectors hold threads, and so does `current_thread_`. -/
def Standing (scheduler : SchedulerUnlocked Thread) : Prop :=
  ∃ roster, scheduler.Represents roster ∧ roster.current ≠ none

theorem Represents.queue_eq (represents : scheduler.Represents roster) :
    scheduler.queue =
      roster.current.map Owned.thread :: roster.waiting.map (fun owned => some owned.thread) := by
  have current : scheduler.currentThread.data = roster.current.map Owned.thread := by
    rw [represents.current]
    cases roster.current <;> rfl
  simp [queue, current, represents.runnable.elements_eq, represents.exhausted.elements_eq,
    Roster.waiting, Function.comp_def, Owned.pointer]

section
variable (standing : scheduler.Standing)
include standing

theorem Standing.mem_queue (entry : Option Thread) (member : entry ∈ scheduler.queue) :
    entry ≠ none := by
  obtain ⟨roster, represents, runs⟩ := standing
  rw [represents.queue_eq] at member
  rcases List.mem_cons.mp member with rfl | waits
  · simpa using runs
  · obtain ⟨owned, _, rfl⟩ := List.mem_map.mp waits
    exact Option.some_ne_none _

/-- A new thread gets the place after the runnable ones, and the current thread goes to the end of the
queue or leaves it. -/
theorem Standing.step (allowed : OtherExists scheduler call) :
    ∃ after, scheduler.perform call = some after ∧ after.Standing ∧
      after.queue = scheduler.queueAfter call := by
  obtain ⟨roster, represents, runs⟩ := standing
  cases call with
  | add thread =>
    obtain ⟨after, added, result⟩ := represents.add thread
    refine ⟨after, added, ⟨_, result, runs⟩, ?_⟩
    have place : scheduler.runnable.count =
        (roster.runnable.map (fun owned => some owned.thread)).length := by
      simp [represents.runnable.count]
    rw [queueAfter, result.queue_eq, represents.queue_eq, List.insertIdx_succ_cons, place]
    simp only [Roster.waiting, List.map_append, Lists.insertIdx_append, Roster.add]
    simp
  | yield =>
    obtain ⟨after, yielded, result⟩ := represents.yield
    refine ⟨after, by simp [perform, yielded], ?_⟩
    rw [queueAfter, result.queue_eq, represents.queue_eq]
    rcases roster.yield_cases with ⟨nobody, stays⟩ |
      ⟨current, next, rest, changed, ran, waits, yields, runsNext, waitsNext, _⟩
    · have alone := nobody.resolve_left runs
      rw [stays] at result ⊢
      exact ⟨⟨_, result, runs⟩, by simp [alone]⟩
    · rw [yields] at result ⊢
      refine ⟨⟨_, result, by simp [runsNext]⟩, ?_⟩
      simp [runsNext, waitsNext, ran, waits]
  | vanish =>
    have other : 2 ≤ scheduler.queue.length := allowed
    rw [represents.queue_eq] at other
    rcases roster.vanish_cases with ⟨nobody, _⟩ |
      ⟨current, next, rest, changed, ran, waits, vanishes, runsNext, waitsNext, _⟩
    · simp [nobody.resolve_left runs] at other
    · have related := represents.vanish
      rw [vanishes] at related
      obtain ⟨⟨after, switch⟩, vanished, result, _⟩ := Simulation.rel_some_right related
      refine ⟨after, by simp [perform, vanished], ⟨_, result, by simp [runsNext]⟩, ?_⟩
      rw [queueAfter, result.queue_eq, represents.queue_eq]
      simp [runsNext, waitsNext, waits]

/-- A call keeps the threads of the queue, but for the one it adds or drops. -/
theorem Standing.queueAfter_perm (call : Call Thread) :
    (scheduler.queueAfter call ++ scheduler.dropped call).Perm (scheduler.queue ++ added [call]) := by
  cases call with
  | add thread =>
    obtain ⟨roster, represents, _⟩ := standing
    have place : scheduler.runnable.count + 1 ≤ scheduler.queue.length := by
      simp [represents.queue_eq, represents.runnable.count, Roster.waiting]
    simpa [queueAfter, dropped, added] using
      (List.perm_insertIdx _ _ place).trans (List.perm_append_singleton _ _).symm
  | yield => simpa [queueAfter, dropped, added] using List.rotate_perm _ _
  | vanish =>
    have head : scheduler.queue = scheduler.currentThread.data :: scheduler.queue.tail := rfl
    rw [queueAfter, dropped, added, List.flatMap_singleton, List.append_nil, head]
    exact List.perm_append_singleton _ _

end

/-- No thread is lost or duplicated in a run. -/
theorem Standing.run (standing : scheduler.Standing)
    (legal : Legal perform OtherExists scheduler calls) :
    ∃ final, Runs.run perform scheduler calls = some final ∧ final.Standing ∧
      (final.queue ++ scheduler.vanished calls).Perm (scheduler.queue ++ added calls) := by
  induction calls generalizing scheduler with
  | nil => exact ⟨scheduler, rfl, standing, .refl _⟩
  | cons call rest ih =>
    obtain ⟨allowed, later⟩ := legal
    obtain ⟨next, performed, standingNext, changed⟩ := standing.step allowed
    obtain ⟨final, ran, standingFinal, kept⟩ := ih standingNext (later next performed)
    refine ⟨final, by simp [Runs.run, performed, ran], standingFinal, ?_⟩
    have here := standing.queueAfter_perm call
    rw [← changed] at here
    rw [vanished, performed, Option.map_some, Option.getD_some,
      show added (call :: rest) = added [call] ++ added rest by simp [added]]
    calc final.queue ++ (scheduler.dropped call ++ next.vanished rest)
        ~ final.queue ++ (next.vanished rest ++ scheduler.dropped call) :=
          List.perm_append_comm.append_left _
      _ = (final.queue ++ next.vanished rest) ++ scheduler.dropped call := by simp
      _ ~ (next.queue ++ added rest) ++ scheduler.dropped call := kept.append_right _
      _ ~ (next.queue ++ scheduler.dropped call) ++ added rest := by
          simpa using List.perm_append_comm.append_left _
      _ ~ (scheduler.queue ++ added [call]) ++ added rest := here.append_right _
      _ = scheduler.queue ++ (added [call] ++ added rest) := by simp

/-- From `begin` on, `yield` rotates the queue, `add` inserts after the runnable threads and
`vanish` drops the head; there is always a current thread, and no thread is lost or duplicated. -/
theorem scheduler_refines_queue (init : Owned Thread) (calls : List (Call Thread))
    (legal : Legal perform OtherExists (initial.begin init.pointer) calls) :
    ∃ scheduler, Runs.run perform (initial.begin init.pointer) calls = some scheduler ∧
      scheduler.currentThread.data ≠ none ∧ (∀ entry ∈ scheduler.queue, entry ≠ none) ∧
      (scheduler.queue ++ vanished (initial.begin init.pointer) calls).Perm
        (some init.thread :: added calls) ∧
      ∀ call, OtherExists scheduler call → ∃ after, scheduler.perform call = some after ∧
        after.queue = scheduler.queueAfter call := by
  have begun : (initial.begin init.pointer : SchedulerUnlocked Thread).Standing :=
    ⟨_, represents_initial.begin init, by simp [Roster.begin]⟩
  obtain ⟨scheduler, ran, standing, kept⟩ := begun.run legal
  refine ⟨scheduler, ran, ?_, standing.mem_queue, kept, fun call allowed => ?_⟩
  · exact standing.mem_queue _ List.mem_cons_self
  · obtain ⟨after, performed, _, changed⟩ := standing.step allowed
    exact ⟨after, performed, changed⟩

/-- Two threads are added, one of them vanishes, and the last one has its turn next. -/
theorem scheduler_refines_queue_sample :
    ∃ scheduler, Runs.run perform (initial.begin (Owned.mk 0 false).pointer)
        [.add ⟨1, false⟩, .yield, .add ⟨2, true⟩, .vanish] = some scheduler ∧
      scheduler.currentThread.data ≠ none := by
  have legal : Legal perform OtherExists (initial.begin (Owned.mk 0 false).pointer)
      [.add ⟨1, false⟩, .yield, .add ⟨2, true⟩, .vanish] := by decide +kernel
  obtain ⟨scheduler, ran, runs, _⟩ := scheduler_refines_queue _ _ legal
  exact ⟨scheduler, ran, runs⟩

end SchedulerUnlocked

end FlapjackOS.Scheduling
