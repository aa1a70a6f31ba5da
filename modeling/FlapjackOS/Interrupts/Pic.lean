import FlapjackOS.Machine.Runs
import Mathlib.Data.List.FinRange
import Mathlib.Order.Fin.Basic
import Mathlib.Tactic.FinCases

/-! The two 8259 interrupt controllers, and `GenericInterruptDispatcher::dispatch` on one CPU. A dispatch
can be interrupted between any two of its accesses to the controllers. -/

namespace FlapjackOS.Interrupts

/-- `PIC1` is the master. `PIC2` is the slave on its line 2. -/
inductive Chip where
  | pic1
  | pic2
  deriving DecidableEq, Repr

/-- The bit in service that has the highest priority. -/
def highest (inService : BitVec 8) : Option (Fin 8) :=
  (List.finRange 8).find? fun level => inService.getLsbD level

/-- A request is passed on if nothing of its priority or a higher one is in service. -/
def delivers (inService : BitVec 8) (level : Fin 8) : Bool :=
  decide (∀ other ≤ level, inService.getLsbD other = false)

def serve (inService : BitVec 8) (level : Fin 8) : BitVec 8 := inService ||| BitVec.twoPow 8 level

/-- The effect of a non-specific `PIC_EOI`. -/
def endOfInterrupt (inService : BitVec 8) : BitVec 8 :=
  match highest inService with
  | none => inService
  | some level => inService &&& ~~~ BitVec.twoPow 8 level

/-- What makes the CPU enter the dispatcher. A spurious interrupt is a request that is withdrawn
before the CPU asks for its vector. -/
inductive Source where
  | irq (line : Fin 16)
  | spurious7
  | spurious15
  | exception (vector : Fin 32)
  deriving DecidableEq, Repr

namespace Source

/-- `params.interrupt_number`, after `remap(0x20, 0x28)`. -/
def vector : Source → BitVec 32
  | irq line => 0x20 + BitVec.ofNat 32 line
  | spurious7 => 0x27
  | spurious15 => 0x2f
  | exception vector => BitVec.ofNat 32 vector

/-- The bit that the interrupt has in service. For the slave's requests, the master has bit 2. -/
def bit : Source → Chip → Option (Fin 8)
  | irq line, .pic1 => some (if small : line < 8 then ⟨line, small⟩ else 2)
  | irq line, .pic2 => if 8 ≤ line then some ⟨line - 8, by omega⟩ else none
  | spurious15, .pic1 => some 2
  | _, _ => none

/-- The controllers can make the request. Line 2 of the master has no device. -/
def possible (source : Source) (inService : Chip → BitVec 8) : Bool :=
  match source with
  | irq line => line ≠ 2 && (source.bit .pic1).all (delivers (inService .pic1)) &&
      (source.bit .pic2).all (delivers (inService .pic2))
  | spurious7 => delivers (inService .pic1) 0
  | spurious15 => delivers (inService .pic1) 2 && delivers (inService .pic2) 0
  | exception _ => true

/-- `interrupt_number - 0x20` -/
def number (source : Source) : BitVec 32 := source.vector - 0x20

end Source

/-- Where a dispatch is: before `get_isr`, before the two `outb`, before `get_handler`, and in
the handler or after it. -/
inductive Phase where
  | entered
  | slaveEoi
  | masterEoi
  | lookup
  | leaving
  deriving DecidableEq, Repr

/-- A dispatch that has not returned, with the number of calls of the handler it has made. -/
structure Activation where
  source : Source
  phase : Phase
  calls : Nat
  deriving DecidableEq, Repr

/-- An EOI that was sent, and the bit it has cleared. -/
structure Ack where
  source : Source
  chip : Chip
  retired : Option (Fin 8)
  deriving DecidableEq, Repr

/-- The running dispatch is the first of the active ones. -/
structure State where
  inService : Chip → BitVec 8
  active : List Activation
  acks : List Ack
  completed : List (Source × Nat)

def boot : State where
  inService := fun _ => 0
  active := []
  acks := []
  completed := []

/-- `handlers_[n]` is not null; `should_panic_on_null_handler_`. -/
structure Dispatcher where
  handlers : BitVec 32 → Bool
  shouldPanicOnNullHandler : Bool

namespace State

def arrive (state : State) (source : Source) : Option State :=
  if source.possible state.inService then
    some { state with
      inService := fun chip => (source.bit chip).elim (state.inService chip) (serve (state.inService chip))
      active := { source, phase := .entered, calls := 0 } :: state.active }
  else none

def getIsr (state : State) : BitVec 16 := state.inService .pic2 ++ state.inService .pic1

/-- The interrupt that `clear` takes for a spurious one. -/
def Spurious (state : State) (irq : BitVec 32) : Prop :=
  irq = 7 ∧ state.getIsr &&& (1 <<< irq.toNat) = 0

instance : Decidable (Spurious state irq) := inferInstanceAs (Decidable (_ ∧ _))

def sendEoi (state : State) (source : Source) (chip : Chip) : State :=
  { state with
    inService := fun other =>
      if other = chip then endOfInterrupt (state.inService chip) else state.inService other
    acks := { source, chip, retired := highest (state.inService chip) } :: state.acks }

def setActive (state : State) (active : List Activation) : State := { state with active }

/-- The running dispatch goes on, up to its next access. `none` is a panic. -/
def advance (dispatcher : Dispatcher) (state : State) : Option State :=
  match state.active with
  | [] => none
  | activation :: below =>
    let source := activation.source
    let proceed (state : State) (phase : Phase) (calls : Nat) : Option State :=
      some (state.setActive ({ source, phase, calls } :: below))
    match activation.phase with
    | .entered =>
      if state.Spurious source.number then proceed state .leaving activation.calls
      else if 8 ≤ source.number.toNat then proceed state .slaveEoi activation.calls
      else proceed state .masterEoi activation.calls
    | .slaveEoi => proceed (state.sendEoi source .pic2) .masterEoi activation.calls
    | .masterEoi => proceed (state.sendEoi source .pic1) .lookup activation.calls
    | .lookup =>
      if dispatcher.handlers source.vector then proceed state .leaving (activation.calls + 1)
      else if dispatcher.shouldPanicOnNullHandler then none
      else proceed state .leaving activation.calls
    | .leaving =>
      some { state with active := below, completed := (source, activation.calls) :: state.completed }

end State

inductive Action where
  | arrive (source : Source)
  | advance
  deriving DecidableEq, Repr

def step (dispatcher : Dispatcher) (state : State) : Action → Option State
  | .arrive source => state.arrive source
  | .advance => state.advance dispatcher

end FlapjackOS.Interrupts
