import FlapjackOS.Common.UniquePointer
import FlapjackOS.Machine.Tally

/-! `SharedPointer` and `UniquePointer` handles to objects on the heap. `none` stands for the
use of a handle or a counter that does not exist. The locks are left out: every operation
releases them before it returns. -/

namespace FlapjackOS.Pointers

open Function

/-- `count` is the counter, which the handles to one object share. -/
structure SharedPointer where
  data : Option Nat
  count : Option Nat
  deriving DecidableEq, Repr

def SharedPointer.null : SharedPointer := { data := none, count := none }

/-- The handles that are alive and the heap. Objects and counters are numbered in the order of
their allocation, `deleted` are the objects that have been deleted, the latest first. -/
structure Pool (Shared Unique : Type) where
  shared : Shared → Option SharedPointer
  unique : Unique → Option (UniquePointer Nat)
  counters : Nat → Option Int
  objects : Nat
  allocated : Nat
  deleted : List Nat

namespace Pool

variable {Shared Unique : Type} [DecidableEq Shared] [DecidableEq Unique]

/-- There are no handles. -/
def start : Pool Shared Unique where
  shared _ := none
  unique _ := none
  counters _ := none
  objects := 0
  allocated := 0
  deleted := []

section
variable (pool : Pool Shared Unique)

def putShared (handle : Shared) (pointer : Option SharedPointer) :
    Pool Shared Unique :=
  { pool with shared := update pool.shared handle pointer }

def putUnique (handle : Unique) (pointer : Option (UniquePointer Nat)) :
    Pool Shared Unique :=
  { pool with unique := update pool.unique handle pointer }

def putCounter (counter : Nat) (count : Option Int) : Pool Shared Unique :=
  { pool with counters := update pool.counters counter count }

/-- `new Type`. -/
def newObject : Pool Shared Unique × Nat :=
  ({ pool with objects := pool.objects + 1 }, pool.objects)

/-- `new std::atomic<int>(1)`. -/
def newCounter : Pool Shared Unique × Nat :=
  ({ pool.putCounter pool.allocated (some 1) with allocated := pool.allocated + 1 }, pool.allocated)

def delete (objects : List Nat) : Pool Shared Unique :=
  { pool with deleted := objects ++ pool.deleted }

def acquireUnlocked (this : SharedPointer) : Option (Pool Shared Unique) :=
  match this.count with
  | none => some pool
  | some counter => do
    let count ← pool.counters counter
    return pool.putCounter counter (some (count + 1))

/-- Without the assignment of the null pointer to both members. -/
def releaseUnlocked (this : SharedPointer) : Option (Pool Shared Unique) :=
  match this.count with
  | none => some pool
  | some counter => do
    let count ← pool.counters counter
    if count = 1 then return (pool.delete this.data.toList).putCounter counter none
    else return pool.putCounter counter (some (count - 1))

/-- `SharedPointer(Type* data)`. -/
def constructShared (handle : Shared) (data : Option Nat) :
    Pool Shared Unique :=
  match data with
  | none => pool.putShared handle (some .null)
  | some object =>
    let (pool, counter) := pool.newCounter
    pool.putShared handle (some { data := some object, count := some counter })

def copyConstruct (handle source : Shared) :
    Option (Pool Shared Unique) := do
  let other ← pool.shared source
  (pool.putShared handle (some other)).acquireUnlocked other

def moveConstruct (handle source : Shared) :
    Option (Pool Shared Unique) := do
  let other ← pool.shared source
  return (pool.putShared handle (some other)).putShared source (some .null)

/-- The move assignment of a `UniquePointer`, without what it leaves in the source. -/
def assignUnique (handle : Unique) (this other : UniquePointer Nat) :
    Pool Shared Unique :=
  (pool.delete this.release).putUnique handle (some other)

/-- The handle takes over the object of the `UniquePointer`, which is told to leak it before it
is set to null. -/
def takeUnique (handle : Shared) (source : Unique) :
    Option (Pool Shared Unique) := do
  let other ← pool.unique source
  let (pool, counter) := pool.newCounter
  let pool := pool.putShared handle (some { data := other.data, count := some counter })
  return pool.assignUnique source other.setShouldLeak .null

def copyAssign (handle source : Shared) : Option (Pool Shared Unique) := do
  let this ← pool.shared handle
  let other ← pool.shared source
  if handle = source then return pool
  let pool ← pool.releaseUnlocked this
  (pool.putShared handle (some other)).acquireUnlocked other

def moveAssign (handle source : Shared) : Option (Pool Shared Unique) := do
  let this ← pool.shared handle
  let other ← pool.shared source
  if handle = source then return pool
  let pool ← pool.releaseUnlocked this
  return (pool.putShared handle (some other)).putShared source (some .null)

/-- The assignment of a `UniquePointer` to a `SharedPointer`. -/
def assignFromUnique (handle : Shared) (source : Unique) :
    Option (Pool Shared Unique) := do
  let this ← pool.shared handle
  let pool ← pool.releaseUnlocked this
  pool.takeUnique handle source

def destroyShared (handle : Shared) : Option (Pool Shared Unique) := do
  let this ← pool.shared handle
  let pool ← pool.releaseUnlocked this
  return pool.putShared handle none

def moveConstructUnique (handle source : Unique) :
    Option (Pool Shared Unique) := do
  let other ← pool.unique source
  return (pool.putUnique handle (some other)).putUnique source (some .null)

def moveAssignUnique (handle source : Unique) :
    Option (Pool Shared Unique) := do
  let this ← pool.unique handle
  let other ← pool.unique source
  if handle = source then return pool
  return (pool.assignUnique handle this other).putUnique source (some .null)

def destroyUnique (handle : Unique) : Option (Pool Shared Unique) := do
  let this ← pool.unique handle
  return (pool.delete this.release).putUnique handle none

end

/-- What a program does with its handles. -/
inductive Action (Shared Unique : Type) where
  | sharedNull (handle : Shared)
  | sharedNew (handle : Shared)
  | sharedCopy (handle source : Shared)
  | sharedMove (handle source : Shared)
  | sharedTake (handle : Shared) (source : Unique)
  | copyAssign (handle source : Shared)
  | moveAssign (handle source : Shared)
  | assignUnique (handle : Shared) (source : Unique)
  | destroyShared (handle : Shared)
  | uniqueNull (handle : Unique)
  | uniqueNew (handle : Unique)
  | uniqueMove (handle source : Unique)
  | moveAssignUnique (handle source : Unique)
  | destroyUnique (handle : Unique)
  deriving DecidableEq, Repr

/-- The handles that an action needs are alive, and the one it constructs is not. -/
def Possible (pool : Pool Shared Unique) : Action Shared Unique → Prop
  | .sharedNull handle | .sharedNew handle => pool.shared handle = none
  | .sharedCopy handle source | .sharedMove handle source =>
    pool.shared handle = none ∧ pool.shared source ≠ none
  | .sharedTake handle source => pool.shared handle = none ∧ pool.unique source ≠ none
  | .copyAssign handle source | .moveAssign handle source =>
    pool.shared handle ≠ none ∧ pool.shared source ≠ none
  | .assignUnique handle source => pool.shared handle ≠ none ∧ pool.unique source ≠ none
  | .destroyShared handle => pool.shared handle ≠ none
  | .uniqueNull handle | .uniqueNew handle => pool.unique handle = none
  | .uniqueMove handle source => pool.unique handle = none ∧ pool.unique source ≠ none
  | .moveAssignUnique handle source => pool.unique handle ≠ none ∧ pool.unique source ≠ none
  | .destroyUnique handle => pool.unique handle ≠ none

instance (pool : Pool Shared Unique) (action : Action Shared Unique) :
    Decidable (pool.Possible action) :=
  match action with
  | .sharedNull _ | .sharedNew _ | .uniqueNull _ | .uniqueNew _ => inferInstanceAs (Decidable (_ = _))
  | .sharedCopy _ _ | .sharedMove _ _ | .sharedTake _ _ | .copyAssign _ _ | .moveAssign _ _
  | .assignUnique _ _ | .uniqueMove _ _ | .moveAssignUnique _ _ => inferInstanceAs (Decidable (_ ∧ _))
  | .destroyShared _ | .destroyUnique _ => inferInstanceAs (Decidable (_ ≠ _))

def step (pool : Pool Shared Unique) : Action Shared Unique → Option (Pool Shared Unique)
  | .sharedNull handle => some (pool.constructShared handle none)
  | .sharedNew handle => some (pool.newObject.1.constructShared handle (some pool.newObject.2))
  | .sharedCopy handle source => pool.copyConstruct handle source
  | .sharedMove handle source => pool.moveConstruct handle source
  | .sharedTake handle source => pool.takeUnique handle source
  | .copyAssign handle source => pool.copyAssign handle source
  | .moveAssign handle source => pool.moveAssign handle source
  | .assignUnique handle source => pool.assignFromUnique handle source
  | .destroyShared handle => pool.destroyShared handle
  | .uniqueNull handle => some (pool.putUnique handle (some .null))
  | .uniqueNew handle =>
    some (pool.newObject.1.putUnique handle (some (.ofPointer (some pool.newObject.2))))
  | .uniqueMove handle source => pool.moveConstructUnique handle source
  | .moveAssignUnique handle source => pool.moveAssignUnique handle source
  | .destroyUnique handle => pool.destroyUnique handle

end Pool

end FlapjackOS.Pointers
