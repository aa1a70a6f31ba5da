import FlapjackOS.Scheduling.Switching
import FlapjackOS.Sync.InterruptLock
import Mathlib.Algebra.BigOperators.Group.Finset.Basic

/-! `SchedulerMonitor`: the lock of the scheduler is taken by one thread and given back by
the one that runs next. -/

namespace FlapjackOS.Scheduling

open Runs Sync Function

/-- Where a thread goes on that is not running. -/
inductive Place where
  | threadStart
  | yield
  | vanish
  deriving DecidableEq, Repr

/-- The saved stack pointer of a `Thread`: a stack and the place of the code on it. -/
structure Resume where
  place : Place
  stack : Nat
  deriving DecidableEq, Repr

/-- A call of `SchedulerLock::lock` or `SchedulerLock::unlock` on this stack. -/
inductive LockEvent where
  | lock (stack : Nat)
  | unlock (stack : Nat)
  deriving DecidableEq, Repr

/-- Why the kernel stops: the assertion in `SchedulerLock::lock`, an assertion of
`SchedulerUnlocked`, a `Thread` object that is used after its destruction, a thread without a stack,
or code that is marked as unreachable. -/
inductive Fault where
  | reentrancy
  | assertion
  | destroyed
  | noStack
  | unreachable
  deriving DecidableEq, Repr

/-- `running` is the stack of the thread that executes, and `held` the number of locks that the
thread on each of the first `stackCount` stacks holds outside the scheduler. `events` are the calls
of the scheduler's lock, the latest first. -/
structure Monitor where
  interrupts : Interrupts
  isLocked : Bool
  impl : World
  resumes : Nat → Option Resume
  running : Nat
  stackCount : Nat
  held : Nat → Nat
  events : List LockEvent

namespace Monitor

/-- The boot code runs on the first stack. -/
def start : Monitor where
  interrupts := { count := 0, enabled := true }
  isLocked := false
  impl := .start
  resumes _ := none
  running := 0
  stackCount := 1
  held _ := 0
  events := []

section
variable (monitor : Monitor)

/-- `SchedulerLock::lock`. -/
def lock : Except Fault Monitor :=
  let monitor := { monitor with interrupts := monitor.interrupts.lock }
  if monitor.isLocked then .error .reentrancy
  else .ok { monitor with isLocked := true, events := .lock monitor.running :: monitor.events }

/-- `SchedulerLock::unlock`. -/
def unlock : Monitor :=
  { monitor with
    isLocked := false
    interrupts := monitor.interrupts.unlock
    events := .unlock monitor.running :: monitor.events }

/-- A call of `SchedulerUnlocked`. -/
def callImpl (event : Event) : Except Fault Monitor :=
  match monitor.impl.perform event with
  | some impl => .ok { monitor with impl }
  | none => .error .assertion

/-- The constructor of `Thread`, which prepares a new stack. -/
def newThread : Monitor :=
  { monitor with
    resumes := update monitor.resumes monitor.impl.created (some ⟨.threadStart, monitor.stackCount⟩)
    stackCount := monitor.stackCount + 1 }

def add (shouldLeak : Bool) : Except Fault Monitor := do
  let monitor ← monitor.newThread.lock
  let monitor ← monitor.callImpl (.add shouldLeak)
  return monitor.unlock

/-- The init thread runs on a stack that it does not own, unless `ownStack`. -/
def begin (shouldLeak ownStack : Bool) : Except Fault Monitor := do
  let monitor ← (if ownStack then monitor.newThread else monitor).lock
  let monitor ← monitor.callImpl (.begin shouldLeak)
  return monitor.unlock

def unlockAtThreadStart : Monitor := monitor.unlock

/-- A thread that was switched to leaves the scheduler: a new one through `thread_start`, and
one that has yielded by the destructor of the guard. -/
def goOn : Place → Except Fault Monitor
  | .threadStart => .ok monitor.unlockAtThreadStart
  | .yield => .ok monitor.unlock
  | .vanish => .error .unreachable

def switchAway (switch : Switch Nat) (place : Place) : Except Fault Monitor :=
  let destroyed := monitor.impl.scheduler.destroyed
  if switch.outgoing ∈ destroyed ∨ switch.incoming ∈ destroyed then .error .destroyed
  else
    match monitor.resumes switch.incoming with
    | none => .error .noStack
    | some resume =>
      { monitor with
        resumes := update monitor.resumes switch.outgoing (some ⟨place, monitor.running⟩)
        running := resume.stack }.goOn resume.place

def yield : Except Fault Monitor := do
  let monitor ← monitor.lock
  let monitor ← monitor.callImpl .yield
  match monitor.impl.lastSwitch with
  | none => return monitor.unlock
  | some switch => monitor.switchAway switch .yield

def vanish : Except Fault Monitor := do
  let monitor ← monitor.lock
  let monitor ← monitor.callImpl .vanish
  match monitor.impl.lastSwitch with
  | none => .error .unreachable
  | some switch => monitor.switchAway switch .vanish

/-- The running thread takes an `InterruptLock` of its own. -/
def acquire : Monitor :=
  { monitor with
    interrupts := monitor.interrupts.lock
    held := update monitor.held monitor.running (monitor.held monitor.running + 1) }

/-- The running thread gives back an `InterruptLock`, if it holds one. -/
def release : Monitor :=
  match monitor.held monitor.running with
  | 0 => monitor
  | held + 1 =>
    { monitor with
      interrupts := monitor.interrupts.unlock
      held := update monitor.held monitor.running held }

/-- What the running thread does, or an interrupt handler on its stack. No handler starts between the atomic
operation of a lock and the rest of it. -/
inductive Action where
  | acquire
  | release
  | add (shouldLeak : Bool)
  | begin (shouldLeak ownStack : Bool)
  | yield
  | vanish
  deriving DecidableEq, Repr

def perform : Action → Except Fault Monitor
  | .acquire => .ok monitor.acquire
  | .release => .ok monitor.release
  | .add shouldLeak => monitor.add shouldLeak
  | .begin shouldLeak ownStack => monitor.begin shouldLeak ownStack
  | .yield => monitor.yield
  | .vanish => monitor.vanish

end

/-- After a fault nothing runs any more. -/
def step (state : Except Fault Monitor) (action : Action) : Option (Except Fault Monitor) :=
  some (state.bind (fun monitor => monitor.perform action))

/-- The number of locks that threads hold outside the scheduler. -/
def heldOutside (monitor : Monitor) : Int :=
  ∑ stack ∈ Finset.range monitor.stackCount, (monitor.held stack : Int)

/-- Every `lock` is followed by one `unlock` before the next `lock`. -/
def Matched : List LockEvent → Prop
  | [] => True
  | .unlock _ :: .lock _ :: earlier => Matched earlier
  | _ => False

/-- What holds while code outside the scheduler runs. -/
structure Outside (monitor : Monitor) : Prop where
  unlocked : monitor.isLocked = false
  counted : monitor.interrupts.count = monitor.heldOutside
  matched : Matched monitor.events

variable {monitor : Monitor} {roster : Roster Nat} {action : Action} {event : Event}
  {outgoing : Nat}

/-- A thread that waits can be switched to. -/
def Ready (monitor : Monitor) (thread : Nat) : Prop :=
  ∃ resume, monitor.resumes thread = some resume ∧ resume.place ≠ .vanish ∧
    resume.stack < monitor.stackCount

/-- The threads of the scheduler wait on stacks of their own. -/
structure Steady (monitor : Monitor) (roster : Roster Nat) : Prop where
  tracked : World.Tracked monitor.impl roster
  ready : ∀ owned ∈ roster.waiting, monitor.Ready owned.thread
  running : monitor.running < monitor.stackCount
  unused : ∀ stack, monitor.stackCount ≤ stack → monitor.held stack = 0

/-- What holds while the scheduler's lock is taken. -/
structure Inside (monitor : Monitor) : Prop where
  counted : monitor.interrupts.count = monitor.heldOutside + 1
  matched : ∃ stack earlier, monitor.events = .lock stack :: earlier ∧ Matched earlier

/-- The scheduler's lock is taken, and the call of `SchedulerUnlocked` has led to `impl`. -/
def entered (monitor : Monitor) (impl : World) : Monitor :=
  { monitor with
    interrupts := monitor.interrupts.lock
    isLocked := true
    events := .lock monitor.running :: monitor.events
    impl }

/-- The assertion in `lock` holds for code outside the scheduler. -/
theorem Outside.enter (outside : monitor.Outside)
    (next : Monitor → Except Fault Monitor) :
    (do let monitor ← monitor.lock
        let monitor ← monitor.callImpl event
        next monitor) =
      match monitor.impl.perform event with
      | some impl => next (monitor.entered impl)
      | none => .error .assertion := by
  have locks : monitor.lock = .ok (monitor.entered monitor.impl) := by
    simp [Monitor.lock, outside.unlocked, entered]
  cases performed : monitor.impl.perform event <;>
    simp [locks, bind, Except.bind, callImpl, entered, performed]

theorem Outside.inside (outside : monitor.Outside) (impl : World) : (monitor.entered impl).Inside where
  counted := by simp [entered, outside.counted, heldOutside]
  matched := ⟨_, _, rfl, outside.matched⟩

theorem Inside.unlock (inside : monitor.Inside) : monitor.unlock.Outside where
  unlocked := rfl
  counted := by simp [Monitor.unlock, inside.counted, heldOutside]
  matched := by
    obtain ⟨stack, earlier, events, matched⟩ := inside.matched
    simpa [Monitor.unlock, events, Matched] using matched

theorem Steady.newThread (steady : monitor.Steady roster) :
    monitor.newThread.Steady roster ∧ monitor.newThread.Ready monitor.impl.created := by
  refine ⟨⟨steady.tracked, ?_, Nat.lt_succ_of_lt steady.running, ?_⟩, ?_⟩
  · intro owned waits
    obtain ⟨resume, saved, place, inside⟩ := steady.ready owned waits
    have older : owned.thread < monitor.impl.created :=
      steady.tracked.orderly.listed _ (by simp [Roster.order]; exact .inl ⟨owned, waits, rfl⟩)
    refine ⟨resume, ?_, place, Nat.lt_succ_of_lt inside⟩
    simpa [Monitor.newThread, update_of_ne older.ne] using saved
  · exact fun stack beyond => steady.unused stack (Nat.le_of_succ_le beyond)
  · exact ⟨_, update_self .., by simp, Nat.lt_succ_self _⟩

theorem Outside.newThread (outside : monitor.Outside) (steady : monitor.Steady roster) :
    monitor.newThread.Outside where
  unlocked := outside.unlocked
  counted := by
    have unused := steady.unused monitor.stackCount (Nat.le_refl _)
    simp [Monitor.newThread, heldOutside, Finset.sum_range_succ, unused, outside.counted]
  matched := outside.matched

section
variable (outside : monitor.Outside) (steady : monitor.Steady roster)
include outside steady

theorem Outside.add (shouldLeak : Bool) :
    ∃ after changed, monitor.add shouldLeak = .ok after ∧ after.Outside ∧ after.Steady changed := by
  obtain ⟨prepared, ready⟩ := steady.newThread
  have outside := outside.newThread steady
  obtain ⟨impl, performed, _, tracked⟩ := prepared.tracked.add shouldLeak
  refine ⟨(monitor.newThread.entered impl).unlock, _, ?_, (outside.inside impl).unlock, tracked,
    fun owned member => ?_, prepared.running, prepared.unused⟩
  · rw [Monitor.add, outside.enter, performed]
    rfl
  · have listed : owned = monitor.impl.newThread shouldLeak ∨ owned ∈ roster.waiting := by
      simp only [Roster.waiting, Roster.add, List.mem_append, List.mem_singleton] at member ⊢
      tauto
    rcases listed with rfl | old
    · exact ready
    · exact prepared.ready owned old

theorem Outside.begin (shouldLeak ownStack : Bool) :
    ∃ after changed, monitor.begin shouldLeak ownStack = .ok after ∧ after.Outside ∧
      after.Steady changed := by
  -- a stack that is prepared for the init thread is of no consequence
  have either : ∃ prepared, (if ownStack then monitor.newThread else monitor) = prepared ∧
      prepared.Outside ∧ prepared.Steady roster := by
    cases ownStack with
    | false => exact ⟨monitor, rfl, outside, steady⟩
    | true => exact ⟨monitor.newThread, rfl, outside.newThread steady, steady.newThread.1⟩
  obtain ⟨prepared, same, outside, steady⟩ := either
  obtain ⟨impl, performed, _, tracked⟩ := steady.tracked.begin shouldLeak
  refine ⟨(prepared.entered impl).unlock, _, ?_, (outside.inside impl).unlock, tracked,
    steady.ready, steady.running, steady.unused⟩
  rw [Monitor.begin, same, outside.enter, performed]
  rfl

/-- The thread with the next turn leaves the scheduler in the place of the one that entered. -/
theorem Outside.switchAway {impl : World} (place : Place) (tracked : World.Tracked impl changed)
    (switched : impl.lastSwitch = some { outgoing, incoming := next.thread }) (safe : impl.SwitchSafe)
    (waits : roster.waiting = next :: rest) (waiting : ∀ owned ∈ changed.waiting,
      owned.thread = outgoing ∧ place ≠ .vanish ∨ owned.thread ≠ outgoing ∧ owned ∈ rest) :
    ∃ after, (monitor.entered impl).switchAway { outgoing, incoming := next.thread } place = .ok after ∧
      after.Outside ∧ after.Steady changed := by
  obtain ⟨resume, saved, goes, onStack⟩ := steady.ready next (waits ▸ List.mem_cons_self)
  obtain ⟨outgoingAlive, incomingAlive, -⟩ := safe _ switched
  -- the state when the incoming thread is about to unlock
  let resumed : Monitor := { monitor.entered impl with
    resumes := update monitor.resumes outgoing (some ⟨place, monitor.running⟩)
    running := resume.stack }
  have leaves : (monitor.entered impl).switchAway { outgoing, incoming := next.thread } place =
      .ok resumed.unlock := by
    simp only [Monitor.switchAway, entered, saved, outgoingAlive, incomingAlive, or_self, if_false]
    obtain ⟨_ | _ | _, stack⟩ := resume
    · rfl
    · rfl
    · exact absurd rfl goes
  have inside := outside.inside impl
  have kept : resumed.Inside := ⟨inside.counted, inside.matched⟩
  refine ⟨_, leaves, kept.unlock, tracked, fun owned member => ?_, onStack, steady.unused⟩
  rcases waiting owned member with ⟨rfl, returns⟩ | ⟨different, old⟩
  · exact ⟨_, update_self .., returns, steady.running⟩
  · obtain ⟨other, savedOther, goesOther, onStackOther⟩ :=
      steady.ready owned (waits ▸ List.mem_cons_of_mem _ old)
    exact ⟨other, (update_of_ne different ..).trans savedOther, goesOther, onStackOther⟩

theorem Outside.yield :
    ∃ after changed, monitor.yield = .ok after ∧ after.Outside ∧ after.Steady changed := by
  rcases steady.tracked.yield with ⟨impl, performed, unswitched, tracked⟩ |
    ⟨current, next, rest, impl, changed, waits, performed, switched, waitsNext, tracked, safe⟩
  · refine ⟨(monitor.entered impl).unlock, roster, ?_, (outside.inside impl).unlock, tracked,
      steady.ready, steady.running, steady.unused⟩
    rw [Monitor.yield, outside.enter, performed]
    simp only [entered, unswitched]
    rfl
  · have waiting : ∀ owned ∈ changed.waiting, owned.thread = current.thread ∧ Place.yield ≠ .vanish ∨
        owned.thread ≠ current.thread ∧ owned ∈ rest := by
      intro owned member
      by_cases same : owned.thread = current.thread
      · exact .inl ⟨same, by simp⟩
      · rw [waitsNext] at member
        rcases List.mem_append.mp member with old | last
        · exact .inr ⟨same, old⟩
        · cases List.mem_singleton.mp last
          exact absurd rfl same
    obtain ⟨after, switches, result⟩ := outside.switchAway steady .yield tracked switched safe waits waiting
    refine ⟨after, changed, ?_, result⟩
    rw [Monitor.yield, outside.enter, performed]
    simp only [entered, switched]
    exact switches

/-- A thread that vanishes and is not leaked has been destroyed when the scheduler switches away from it. -/
theorem Outside.vanish :
    monitor.impl.scheduler.canYield = false ∧ monitor.vanish = .error .assertion ∨
    monitor.impl.scheduler.canYield = true ∧ if monitor.impl.scheduler.currentThread.shouldLeak then
      ∃ after changed, monitor.vanish = .ok after ∧ after.Outside ∧ after.Steady changed
    else monitor.vanish = .error .destroyed := by
  rcases steady.tracked.vanish with ⟨alone, fails⟩ |
    ⟨others, current, next, rest, impl, changed, runs, waits, performed, switched, waitsNext, tracked, safe⟩
  · refine .inl ⟨alone, ?_⟩
    rw [Monitor.vanish, outside.enter, fails]
  · have apart : ∀ owned ∈ next :: rest, owned.thread ≠ current.thread := by
      intro owned member same
      have nodup := steady.tracked.orderly.fair.nodup
      rw [Roster.order, runs, waits, List.map_append] at nodup
      exact List.disjoint_of_nodup_append nodup (List.mem_map_of_mem member) (by simp [same])
    have switches : monitor.vanish = (monitor.entered impl).switchAway
        { outgoing := current.thread, incoming := next.thread } .vanish := by
      rw [Monitor.vanish, outside.enter, performed]
      simp only [entered, switched]
    refine .inr ⟨others, ?_⟩
    rw [switches]
    split
    · next leaks =>
      obtain ⟨after, leaves, result⟩ := outside.switchAway steady .vanish tracked switched (safe.mpr leaks) waits
        fun owned member => .inr ⟨apart owned (List.mem_cons_of_mem _ (waitsNext ▸ member)), waitsNext ▸ member⟩
      exact ⟨after, changed, leaves, result⟩
    · next deletes =>
      have different := (apart next List.mem_cons_self).symm
      have gone := mt safe.mp deletes
      simp only [World.SwitchSafe, switched, Option.mem_some_iff, forall_eq', different, ne_eq, not_false_eq_true,
        and_true, not_and_or, not_not] at gone
      exact if_pos gone

/-- The running thread comes to hold `count` locks. -/
theorem Outside.hold {interrupts : Interrupts} {count : Nat}
    (counted : interrupts.count = monitor.interrupts.count - monitor.held monitor.running + count) :
    let after : Monitor := { monitor with interrupts, held := update monitor.held monitor.running count }
    after.Outside ∧ after.Steady roster := by
  have running := steady.running
  refine ⟨⟨outside.unlocked, ?_, outside.matched⟩, steady.tracked, steady.ready, running, fun stack beyond => ?_⟩
  · have member := Finset.mem_range.mpr running
    have others : ∀ stack ∈ (Finset.range monitor.stackCount).erase monitor.running,
        ((update monitor.held monitor.running count stack : Nat) : Int) = monitor.held stack := by
      intro stack other
      rw [update_of_ne (Finset.ne_of_mem_erase other)]
    rw [outside.counted, heldOutside, ← Finset.add_sum_erase _ _ member] at counted
    rw [counted, heldOutside, ← Finset.add_sum_erase _ _ member]
    simp only [update_self, Finset.sum_congr rfl others]
    omega
  · have other : stack ≠ monitor.running := by
      simp only at beyond
      omega
    exact (update_of_ne other ..).trans (steady.unused stack beyond)

end

/-- Every `lock` has been followed by one `unlock`, the lock is free, and the count is the number of locks
that threads hold outside the scheduler, or the kernel has stopped at an assertion of `SchedulerUnlocked`. -/
def HandedOver : Except Fault Monitor → Prop
  | .ok monitor => monitor.Outside
  | .error fault => fault = .assertion

/-- The thread that vanishes is one that the pointer is told to leak. -/
def LeaksVanishing (state : Except Fault Monitor) (action : Action) : Prop :=
  ∀ monitor, state = .ok monitor → action = .vanish → monitor.impl.scheduler.canYield = true →
    monitor.impl.scheduler.currentThread.shouldLeak = true

/-- The kernel has not stopped, or it has stopped in the scheduler. -/
def Handed (state : Except Fault Monitor) : Prop :=
  state = .error .assertion ∨
    ∃ monitor roster, state = .ok monitor ∧ monitor.Outside ∧ monitor.Steady roster

/-- Whatever the running thread does, the next code outside the scheduler finds the lock free. -/
theorem Outside.perform (outside : monitor.Outside) (steady : monitor.Steady roster) {action : Action}
    (leaks : LeaksVanishing (.ok monitor) action) : Handed (monitor.perform action) := by
  cases action with
  | acquire =>
    refine .inr ⟨_, roster, rfl, outside.hold steady ?_⟩
    rw [Interrupts.count_lock]
    omega
  | release =>
    refine .inr ⟨_, roster, rfl, ?_⟩
    rw [release]
    split
    · exact ⟨outside, steady⟩
    · next held before =>
      refine outside.hold steady ?_
      rw [Interrupts.count_unlock, before]
      omega
  | add shouldLeak => exact .inr (outside.add steady shouldLeak)
  | begin shouldLeak ownStack => exact .inr (outside.begin steady shouldLeak ownStack)
  | yield => exact .inr (outside.yield steady)
  | vanish =>
    rcases outside.vanish steady with ⟨_, fails⟩ | ⟨others, result⟩
    · exact .inl fails
    · rw [if_pos (leaks monitor rfl rfl others)] at result
      exact .inr result

/-- The assertion in `SchedulerLock::lock` never fails and the scheduler's lock is handed over at every
switch, if and only if every thread that vanishes while there is another is one that its pointer is told to
leak. -/
theorem lock_handoff_iff (actions : List Action) :
    Always step HandedOver (.ok start) actions ↔ Legal step LeaksVanishing (.ok start) actions := by
  have possible : Legal step (fun _ _ => True) (.ok start) actions := legal_of_forall fun _ _ => trivial
  have held : Handed (.ok start) := .inr ⟨start, _, rfl, ⟨rfl, by simp [start, heldOutside], trivial⟩,
    ⟨World.tracked_start, by simp [Roster.waiting, Roster.initial], Nat.one_pos, fun _ _ => rfl⟩⟩
  refine always_iff_legal ?_ ?_ ?_ possible held
  · rintro _ (rfl | ⟨monitor, _, rfl, outside, _⟩)
    · rfl
    · exact outside
  · rintro _ action (rfl | ⟨monitor, roster, rfl, outside, steady⟩) _ leaks
    · exact ⟨_, rfl, .inl rfl⟩
    · exact ⟨_, rfl, outside.perform steady leaks⟩
  · rintro _ action _ (rfl | ⟨monitor, roster, rfl, outside, steady⟩) _ deletes ⟨⟩
    · exact absurd (by rintro _ ⟨⟩) deletes
    · simp only [LeaksVanishing, Except.ok.injEq, forall_eq', Classical.not_imp] at deletes
      obtain ⟨rfl, others, deletes⟩ := deletes
      rcases outside.vanish steady with ⟨alone, _⟩ | ⟨_, result⟩
      · exact absurd (alone.symm.trans others) Bool.false_ne_true
      · rw [if_neg deletes] at result
        simp [Except.bind, perform, result, HandedOver]

/-- A second thread is added, gets its turn and vanishes: it has been destroyed when the scheduler
switches away from it, and its lock is not given back. -/
theorem vanish_keeps_lock :
    ∃ monitor, run step (.ok start) [.begin false false, .add false, .yield] = some (.ok monitor) ∧
      monitor.vanish = .error .destroyed ∧
      ¬ Always step HandedOver (.ok start) [.begin false false, .add false, .yield, .vanish] := by
  refine ⟨_, rfl, rfl, ?_⟩
  rintro ⟨_, _, ⟨⟩, _, _, ⟨⟩, _, _, ⟨⟩, _, _, ⟨⟩, handed⟩
  exact Fault.noConfusion (show Fault.destroyed = .assertion from handed)

end Monitor

end FlapjackOS.Scheduling
