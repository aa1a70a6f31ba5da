import FlapjackOS.Machine.Simulation
import FlapjackOS.Machine.Turns
import FlapjackOS.Scheduling.Roster

/-! Runs of the scheduler with new threads: which threads get their turn, and which
`Thread` objects still exist when the scheduler switches between them. -/

namespace FlapjackOS.Scheduling

open Runs Turns

/-- The threads that take turns, the current one last. -/
def Roster.order (roster : Roster Thread) : List Thread :=
  (roster.waiting ++ roster.current.toList).map Owned.thread

/-- The threads in the order take turns, none of them has been destroyed, and all
threads have been created. -/
structure Orderly (order dispatched destroyed : List Nat) (created : Nat) : Prop where
  fair : Fair order dispatched
  bounded : Bounded dispatched
  listed : ∀ thread ∈ order, thread < created
  seen : ∀ thread ∈ dispatched, thread < created
  gone : ∀ thread ∈ destroyed, thread < created
  alive : ∀ thread ∈ order, thread ∉ destroyed

section
variable {order left right leaving more dispatched destroyed : List Nat} {created thread : Nat}

/-- The next thread that is created joins in. -/
theorem Orderly.join (orderly : Orderly (left ++ right) dispatched destroyed created) :
    Orderly (left ++ created :: right) dispatched destroyed (created + 1) := by
  have unlisted : created ∉ left ++ right := fun member => (orderly.listed _ member).false
  have unseen : created ∉ dispatched := fun member => (orderly.seen _ member).false
  have members : ∀ thread ∈ left ++ created :: right, thread = created ∨ thread ∈ left ++ right := by
    intro thread
    simp only [List.mem_append, List.mem_cons]
    tauto
  refine ⟨orderly.fair.join unlisted unseen, orderly.bounded, ?_, ?_, ?_, ?_⟩
  · intro thread member
    rcases members thread member with rfl | old
    · exact Nat.lt_succ_self _
    · exact Nat.lt_succ_of_lt (orderly.listed thread old)
  · exact fun thread member => Nat.lt_succ_of_lt (orderly.seen thread member)
  · exact fun thread member => Nat.lt_succ_of_lt (orderly.gone thread member)
  · intro thread member
    rcases members thread member with rfl | old
    · exact fun destroyed => (orderly.gone _ destroyed).false
    · exact orderly.alive thread old

/-- Threads that leave the order may be destroyed. -/
theorem Orderly.leave (orderly : Orderly (order ++ leaving) dispatched destroyed created)
    (released : ∀ thread ∈ more, thread ∈ leaving) :
    Orderly order dispatched (destroyed ++ more) created := by
  have stays : ∀ thread ∈ order, thread ∈ order ++ leaving :=
    fun thread member => List.mem_append_left _ member
  refine ⟨orderly.fair.sublist (List.sublist_append_left _ _), orderly.bounded, ?_, orderly.seen,
    ?_, ?_⟩
  · exact fun thread member => orderly.listed thread (stays thread member)
  · intro thread member
    rcases List.mem_append.mp member with earlier | now
    · exact orderly.gone thread earlier
    · exact orderly.listed thread (List.mem_append_right _ (released thread now))
  · intro thread member destroyed
    rcases List.mem_append.mp destroyed with earlier | now
    · exact orderly.alive thread (stays thread member) earlier
    · exact List.disjoint_of_nodup_append orderly.fair.nodup member (released thread now)

theorem Orderly.turn (orderly : Orderly (thread :: order) dispatched destroyed created) :
    Orderly (order ++ [thread]) (thread :: dispatched) destroyed created := by
  have members : ∀ other ∈ order ++ [thread], other ∈ thread :: order := by
    intro other
    simp only [List.mem_append, List.mem_cons, List.not_mem_nil]
    tauto
  refine ⟨orderly.fair.turn, ?_, ?_, ?_, orderly.gone, ?_⟩
  · exact orderly.bounded.turn (orderly.fair.once thread List.mem_cons_self)
  · exact fun other member => orderly.listed other (members other member)
  · intro other member
    rcases List.mem_cons.mp member with rfl | earlier
    · exact orderly.listed other List.mem_cons_self
    · exact orderly.seen other earlier
  · exact fun other member => orderly.alive other (members other member)

end

/-- Threads are numbered in the order of their creation. `lastSwitch` is the switch that
the last call made, and `dispatched` are the threads that became current, the latest first.
A failed assertion halts the kernel. -/
structure World where
  scheduler : SchedulerUnlocked Nat
  created : Nat
  lastSwitch : Option (Switch Nat)
  dispatched : List Nat
  halted : Bool
  deriving DecidableEq, Repr

/-- Calls of the scheduler. Every `add` and every `begin` passes a new thread, which
may be one that the pointer is told to leak. -/
inductive Event where
  | add (shouldLeak : Bool)
  | begin (shouldLeak : Bool)
  | yield
  | vanish
  deriving DecidableEq, Repr

namespace World

variable {world after : World} {roster changed : Roster Nat} {event : Event} {events : List Event}

def start : World where
  scheduler := .initial
  created := 0
  lastSwitch := none
  dispatched := []
  halted := false

/-- The new thread. -/
def newThread (world : World) (shouldLeak : Bool) : Owned Nat := { thread := world.created, shouldLeak }

/-- The scheduler has made this switch, if any. -/
def switched (world : World) (scheduler : SchedulerUnlocked Nat) (switch : Option (Switch Nat)) :
    World :=
  { world with
    scheduler
    lastSwitch := switch
    dispatched := switch.toList.map Switch.incoming ++ world.dispatched }

def perform (world : World) : Event → Option World
  | .add shouldLeak => do
    let scheduler ← world.scheduler.add (world.newThread shouldLeak).pointer
    return { world with scheduler, created := world.created + 1, lastSwitch := none }
  | .begin shouldLeak =>
    some { world with
      scheduler := world.scheduler.begin (world.newThread shouldLeak).pointer
      created := world.created + 1
      lastSwitch := none
      dispatched := world.created :: world.dispatched }
  | .yield => do
    let (scheduler, switch) ← world.scheduler.yield
    return world.switched scheduler switch
  | .vanish => do
    let (scheduler, switch) ← world.scheduler.vanish
    return world.switched scheduler (some switch)

def halt (world : World) : World := { world with lastSwitch := none, halted := true }

def step (world : World) (event : Event) : Option World :=
  if world.halted then some world else some ((world.perform event).getD world.halt)

/-- Neither thread of the last switch had been destroyed, and they were different. -/
def SwitchSafe (world : World) : Prop :=
  ∀ switch ∈ world.lastSwitch, switch.outgoing ∉ world.scheduler.destroyed ∧
    switch.incoming ∉ world.scheduler.destroyed ∧ switch.outgoing ≠ switch.incoming

instance : Decidable world.SwitchSafe := inferInstanceAs (Decidable (∀ switch ∈ _, _))

/-- The scheduler has the queues of the roster, and its threads take turns. -/
structure Tracked (world : World) (roster : Roster Nat) : Prop where
  represents : world.scheduler.Represents roster
  orderly : Orderly roster.order world.dispatched roster.destroyed world.created

theorem tracked_start : Tracked start Roster.initial :=
  ⟨SchedulerUnlocked.represents_initial, show Orderly [] [] [] 0 by
    refine ⟨fair_nil, bounded_nil, ?_, ?_, ?_, ?_⟩ <;> simp⟩

theorem Tracked.add (tracked : Tracked world roster) (shouldLeak : Bool) :
    ∃ after, world.perform (.add shouldLeak) = some after ∧ after.lastSwitch = none ∧
      Tracked after (roster.add (world.newThread shouldLeak)) := by
  obtain ⟨scheduler, added, represents⟩ := tracked.represents.add (world.newThread shouldLeak)
  refine ⟨{ world with scheduler, created := world.created + 1, lastSwitch := none },
    by simp [perform, added], rfl, represents, ?_⟩
  have orderly := tracked.orderly
  simp only [Roster.order, Roster.waiting, List.append_assoc, List.map_append] at orderly
  simpa [Roster.order, Roster.waiting, Roster.add, newThread] using orderly.join

/-- The pointer to the current thread deletes no other thread. -/
theorem released_current (current : Option (Owned Nat)) :
    ∀ thread ∈ (current.map Owned.release).getD [], thread ∈ current.toList.map Owned.thread := by
  intro thread member
  cases current with
  | none => cases member
  | some current =>
    simp only [Option.map_some, Option.getD_some, Owned.release] at member
    split at member
    · cases member
    · simpa using member

theorem Tracked.begin (tracked : Tracked world roster) (shouldLeak : Bool) :
    ∃ after, world.perform (.begin shouldLeak) = some after ∧ after.lastSwitch = none ∧
      Tracked after (roster.begin (world.newThread shouldLeak)) := by
  refine ⟨_, rfl, rfl, tracked.represents.begin _, ?_⟩
  have orderly := tracked.orderly
  rw [Roster.order, List.map_append] at orderly
  have left := orderly.leave (released_current roster.current)
  rw [← List.nil_append (roster.waiting.map Owned.thread)] at left
  simpa [Roster.order, Roster.waiting, Roster.begin, newThread] using left.join.turn

/-- Either nothing happens, or the scheduler switches to the first waiting thread. -/
theorem Tracked.yield (tracked : Tracked world roster) :
    (∃ after, world.perform .yield = some after ∧ after.lastSwitch = none ∧ Tracked after roster) ∨
    ∃ current next rest after changed, roster.waiting = next :: rest ∧
      world.perform .yield = some after ∧
      after.lastSwitch = some { outgoing := current.thread, incoming := next.thread } ∧
      changed.waiting = rest ++ [current] ∧ Tracked after changed ∧ after.SwitchSafe := by
  obtain ⟨scheduler, yielded, represents⟩ := tracked.represents.yield
  have performed : world.perform .yield = some (world.switched scheduler roster.yield.2) := by
    simp [perform, yielded]
  rcases roster.yield_cases with ⟨_, stays⟩ |
    ⟨current, next, rest, changed, runs, waits, yields, runsNext, waitsNext, destroyed⟩
  · rw [stays] at performed represents
    exact .inl ⟨_, performed, rfl, represents, tracked.orderly⟩
  · rw [yields] at performed represents
    have before : roster.order = next.thread :: (rest.map Owned.thread ++ [current.thread]) := by
      simp [Roster.order, runs, waits]
    have order : changed.order = rest.map Owned.thread ++ [current.thread] ++ [next.thread] := by
      simp [Roster.order, runsNext, waitsNext]
    have orderly := tracked.orderly
    rw [before] at orderly
    have turned := orderly.turn
    rw [← order, ← destroyed] at turned
    refine .inr ⟨current, next, rest, _, changed, waits, performed, rfl, waitsNext,
      ⟨represents, turned⟩, ?_⟩
    have apart : current.thread ≠ next.thread := by
      rintro same
      exact (List.nodup_cons.mp orderly.fair.nodup).1 (by simp [same])
    simp only [SwitchSafe, switched, represents.destroyed, Option.mem_some_iff, forall_eq']
    exact ⟨turned.alive _ (by simp [order]), turned.alive _ (by simp [order]), apart⟩

/-- A thread that vanishes is destroyed before the switch, unless it is leaked. -/
theorem Tracked.vanish (tracked : Tracked world roster) :
    world.scheduler.canYield = false ∧ world.perform .vanish = none ∨
    world.scheduler.canYield = true ∧ ∃ current next rest after changed,
      roster.current = some current ∧ roster.waiting = next :: rest ∧
      world.perform .vanish = some after ∧
      after.lastSwitch = some { outgoing := current.thread, incoming := next.thread } ∧
      changed.waiting = rest ∧ Tracked after changed ∧
      (after.SwitchSafe ↔ world.scheduler.currentThread.shouldLeak = true) := by
  have related := tracked.represents.vanish
  have canYield := tracked.represents.canYield_iff
  rcases roster.vanish_cases with ⟨alone, fails⟩ |
    ⟨current, next, rest, changed, runs, waits, vanishes, runsNext, waitsNext, destroyed⟩
  · rw [fails] at related
    have failed := Simulation.rel_none_right related
    refine .inl ⟨?_, by simp [perform, failed]⟩
    rw [← Bool.not_eq_true, canYield]
    tauto
  · rw [vanishes] at related
    obtain ⟨⟨scheduler, switch⟩, vanished, represents, rfl⟩ := Simulation.rel_some_right related
    have performed : world.perform .vanish = some (world.switched scheduler
        (some { outgoing := current.thread, incoming := next.thread })) := by
      simp [perform, vanished]
    have before : roster.order = next.thread :: rest.map Owned.thread ++ [current.thread] := by
      simp [Roster.order, runs, waits]
    have order : changed.order = rest.map Owned.thread ++ [next.thread] := by
      simp [Roster.order, runsNext, waitsNext]
    have orderly := tracked.orderly
    rw [before] at orderly
    have released : ∀ thread ∈ current.release, thread ∈ [current.thread] := by
      simpa using released_current (some current)
    have turned := (orderly.leave released).turn
    rw [← order, ← destroyed] at turned
    refine .inr ⟨canYield.mpr (by simp [runs, waits]), current, next, rest, _, changed, runs, waits,
      performed, rfl, waitsNext, ⟨represents, turned⟩, ?_⟩
    have leaks : world.scheduler.currentThread.shouldLeak = current.shouldLeak := by
      simp [tracked.represents.current, runs, SchedulerUnlocked.currentPointer, Owned.pointer]
    have apart : current.thread ≠ next.thread := by
      rintro same
      exact (List.nodup_cons.mp orderly.fair.nodup).1 (by simp [same])
    have kept : current.thread ∉ roster.destroyed := orderly.alive _ (by simp)
    have incoming : next.thread ∉ changed.destroyed := turned.alive _ (by simp [order])
    simp only [SwitchSafe, switched, represents.destroyed, Option.mem_some_iff, forall_eq', leaks]
    rw [and_iff_left ⟨incoming, apart⟩, destroyed, Owned.release]
    cases current.shouldLeak <;> simp [kept]

/-- The thread that vanishes is one that the pointer is told to leak. -/
def LeaksVanishing (world : World) : Event → Prop
  | .vanish => world.halted = false → world.scheduler.canYield = true →
    world.scheduler.currentThread.shouldLeak = true
  | _ => True

instance (event : Event) : Decidable (LeaksVanishing world event) :=
  match event with
  | .vanish => inferInstanceAs (Decidable (_ → _ → _))
  | .add _ | .begin _ | .yield => inferInstanceAs (Decidable True)

theorem switchSafe_of_none (none : world.lastSwitch = none) : world.SwitchSafe := by
  simp [SwitchSafe, none]

/-- What a call does that does not halt. -/
theorem Tracked.running (tracked : Tracked world roster) (running : world.halted = false) (event : Event) :
    ∃ after changed, world.step event = some after ∧ Tracked after changed ∧
      (after.SwitchSafe ↔ LeaksVanishing world event) := by
  cases event with
  | add shouldLeak =>
    obtain ⟨after, performed, unswitched, result⟩ := tracked.add shouldLeak
    refine ⟨after, _, by simp [step, running, performed], result, ?_⟩
    simp [switchSafe_of_none unswitched, LeaksVanishing]
  | begin shouldLeak =>
    obtain ⟨after, performed, unswitched, result⟩ := tracked.begin shouldLeak
    refine ⟨after, _, by simp [step, running, performed], result, ?_⟩
    simp [switchSafe_of_none unswitched, LeaksVanishing]
  | yield =>
    rcases tracked.yield with ⟨after, performed, unswitched, result⟩ |
      ⟨_, _, _, after, changed, _, performed, _, _, result, safe⟩
    · refine ⟨after, roster, by simp [step, running, performed], result, ?_⟩
      simp [switchSafe_of_none unswitched, LeaksVanishing]
    · refine ⟨after, changed, by simp [step, running, performed], result, ?_⟩
      simp [safe, LeaksVanishing]
  | vanish =>
    rcases tracked.vanish with ⟨alone, fails⟩ |
      ⟨others, _, _, _, after, changed, _, _, performed, _, _, result, safe⟩
    · refine ⟨world.halt, roster, by simp [step, running, fails], ⟨tracked.1, tracked.2⟩, ?_⟩
      simp [switchSafe_of_none, halt, LeaksVanishing, alone]
    · refine ⟨after, changed, by simp [step, running, performed], result, ?_⟩
      simp [safe, LeaksVanishing, running, others]

theorem Tracked.step (tracked : Tracked world roster) (event : Event) :
    ∃ after changed, world.step event = some after ∧ Tracked after changed ∧
      (world.SwitchSafe → (after.SwitchSafe ↔ LeaksVanishing world event)) := by
  cases halted : world.halted with
  | false =>
    obtain ⟨after, changed, stepped, result, safe⟩ := tracked.running halted event
    exact ⟨after, changed, stepped, result, fun _ => safe⟩
  | true =>
    refine ⟨world, roster, by simp [World.step, halted], tracked, fun safe => iff_of_true safe ?_⟩
    cases event <;> simp [LeaksVanishing, halted]

/-- The invariant of all runs. -/
def Tracking (world : World) : Prop := ∃ roster, Tracked world roster

/-- Between two consecutive moments at which a thread becomes current no other thread
becomes current twice, whatever is added in between. -/
theorem overtaking_bound (events : List Event) :
    ∃ world, run step start events = some world ∧
      ∀ thread after between before,
        world.dispatched = after ++ thread :: (between ++ thread :: before) → thread ∉ between →
        ∀ other, between.count other ≤ 1 := by
  have legal : Legal step (fun _ _ => True) start events := legal_of_forall (by simp)
  have held : Tracking start := ⟨_, tracked_start⟩
  have progress : ∀ world event, Tracking world → True →
      ∃ after, world.step event = some after ∧ Tracking after := by
    rintro world event ⟨roster, tracked⟩ _
    obtain ⟨after, changed, stepped, result, _⟩ := tracked.step event
    exact ⟨after, stepped, changed, result⟩
  obtain ⟨world, ran, roster, tracked⟩ := run_invariant progress legal held
  refine ⟨world, ran, fun thread after between before turns absent other => ?_⟩
  have once := tracked.orderly.bounded thread after between before turns absent
  exact List.nodup_iff_count_le_one.mp once other

/-- The invariant of the runs that are safe. -/
def Sound (world : World) : Prop := Tracking world ∧ world.SwitchSafe

/-- Both threads of every switch exist and are different, if and only if every thread that
vanishes while there is another is one that its pointer is told to leak. -/
theorem switches_safe_iff (events : List Event) :
    Always step SwitchSafe start events ↔ Legal step LeaksVanishing start events := by
  have possible : Legal step (fun _ _ => True) start events := legal_of_forall (by simp)
  have held : Sound start := ⟨⟨_, tracked_start⟩, switchSafe_of_none rfl⟩
  refine always_iff_legal (fun _ => And.right) ?_ ?_ possible held
  · rintro world event ⟨⟨roster, tracked⟩, safe⟩ _ leaks
    obtain ⟨after, changed, stepped, result, safeAfter⟩ := tracked.step event
    exact ⟨after, stepped, ⟨changed, result⟩, (safeAfter safe).mpr leaks⟩
  · rintro world event next ⟨⟨roster, tracked⟩, safe⟩ _ deletes stepped
    obtain ⟨after, changed, same, _, safeAfter⟩ := tracked.step event
    cases stepped.symm.trans same
    exact mt (safeAfter safe).mp deletes

/-- A second thread is added, gets its turn and vanishes: it is destroyed, and then the
scheduler switches away from it. -/
theorem vanish_destroys_outgoing :
    ∃ world, run step start [.begin false, .add false, .yield, .vanish] = some world ∧
      world.lastSwitch = some { outgoing := 1, incoming := 0 } ∧
      world.scheduler.destroyed = [1] ∧ ¬ world.SwitchSafe := by
  refine ⟨_, rfl, rfl, rfl, ?_⟩
  decide

end World

end FlapjackOS.Scheduling
