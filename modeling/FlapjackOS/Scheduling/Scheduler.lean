import FlapjackOS.Common.Vector

/-! `SchedulerUnlocked`. `none` stands for a failed assertion or for the use of a null
pointer as a thread. -/

namespace FlapjackOS.Scheduling

/-- A call of `previous_thread.switch_away(*current_thread_)`. -/
structure Switch (Thread : Type) where
  outgoing : Thread
  incoming : Thread
  deriving DecidableEq, Repr

/-- `destroyed` records the `Thread` objects that have been deleted. -/
structure SchedulerUnlocked (Thread : Type) where
  runnable : Vector (UniquePointer Thread)
  exhausted : Vector (UniquePointer Thread)
  currentThread : UniquePointer Thread
  destroyed : List Thread
  deriving DecidableEq, Repr

namespace SchedulerUnlocked

variable {Thread : Type}

def initial : SchedulerUnlocked Thread where
  runnable := .nil
  exhausted := .nil
  currentThread := .null
  destroyed := []

section
variable (scheduler : SchedulerUnlocked Thread)

/-- The destructors of these pointers have run. -/
def discard (pointers : List (UniquePointer Thread)) :
    SchedulerUnlocked Thread :=
  { scheduler with destroyed := scheduler.destroyed ++ pointers.flatMap UniquePointer.release }

/-- The move assignment to `current_thread_`, without what it leaves in the source. -/
def setCurrentThread (thread : UniquePointer Thread) :
    SchedulerUnlocked Thread :=
  { scheduler with
    currentThread := thread
    destroyed := scheduler.destroyed ++ scheduler.currentThread.release }

def add (thread : UniquePointer Thread) :
    Option (SchedulerUnlocked Thread) := do
  let (runnable, gone) ← scheduler.runnable.emplaceBack thread
  return { scheduler with runnable }.discard gone

def begin (initThread : UniquePointer Thread) :
    SchedulerUnlocked Thread :=
  scheduler.setCurrentThread initThread

def canYield : Bool :=
  scheduler.currentThread.data.isSome && !(scheduler.runnable.empty && scheduler.exhausted.empty)

def takeCurrentThreadFromRunnableQueue :
    Option (SchedulerUnlocked Thread) := do
  let front ← scheduler.runnable.front
  let (runnable, gone) ← (scheduler.runnable.setFront .null).popFront
  return { scheduler.setCurrentThread front with runnable }.discard gone

def swapRunnableAndExhaustedIfNecessary :
    Option (SchedulerUnlocked Thread) :=
  if scheduler.runnable.empty && scheduler.exhausted.empty then none
  else if scheduler.runnable.empty then
    some { scheduler with runnable := scheduler.exhausted, exhausted := scheduler.runnable }
  else some scheduler

def moveToNextRunnableThread :
    Option (SchedulerUnlocked Thread) :=
  if scheduler.runnable.empty then some scheduler
  else do
    let (exhausted, gone) ← scheduler.exhausted.emplaceBack scheduler.currentThread
    ({ scheduler with exhausted, currentThread := .null }.discard gone).takeCurrentThreadFromRunnableQueue

def switchAway (previousThread : Thread) :
    Option (SchedulerUnlocked Thread × Switch Thread) := do
  let next ← scheduler.currentThread.data
  return (scheduler, { outgoing := previousThread, incoming := next })

/-- The state at the switch, which is made only if there is another thread. -/
def yield :
    Option (SchedulerUnlocked Thread × Option (Switch Thread)) :=
  if scheduler.canYield then do
    let previousThread ← scheduler.currentThread.data
    let scheduler ← scheduler.swapRunnableAndExhaustedIfNecessary
    let scheduler ← scheduler.moveToNextRunnableThread
    let (scheduler, switch) ← scheduler.switchAway previousThread
    return (scheduler, some switch)
  else some (scheduler, none)

def vanish :
    Option (SchedulerUnlocked Thread × Switch Thread) := do
  let previousThread ← scheduler.currentThread.data
  let scheduler ← scheduler.swapRunnableAndExhaustedIfNecessary
  let scheduler ← scheduler.takeCurrentThreadFromRunnableQueue
  scheduler.switchAway previousThread

end

end SchedulerUnlocked

end FlapjackOS.Scheduling
