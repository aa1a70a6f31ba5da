import FlapjackOS.Context.Frame
import FlapjackOS.Machine.Window

namespace FlapjackOS.Context

open Function Machine Runs

variable {arch : Arch} {Thread : Type}

/-- Where the stacks of the threads are, and where their `stack_pointer` members are. -/
structure Layout (arch : Arch) (Thread : Type) where
  stack : Thread → Window
  slot : Thread → Nat
  bounded : ∀ thread, (stack thread).finish ≤ arch.modulus
  stacksApart : ∀ thread other, thread ≠ other →
    (stack thread).finish ≤ (stack other).start ∨ (stack other).finish ≤ (stack thread).start
  slotsApart : ∀ thread other, thread ≠ other →
    slot thread + arch.wordBytes ≤ slot other ∨ slot other + arch.wordBytes ≤ slot thread
  apart : ∀ thread other,
    slot thread + arch.wordBytes ≤ (stack other).start ∨ (stack other).finish ≤ slot thread

/-- `calls` has the processor at the call of `context_switch` for each thread that made one and has
not been switched back to. -/
structure World (arch : Arch) (Thread : Type) where
  cpu : Cpu arch
  current : Thread
  calls : Thread → Option (Cpu arch)

/-- The current thread does some work of its own, which leaves the processor in any state, or it
calls `switch_away`. -/
inductive Action (arch : Arch) (Thread : Type) where
  | work (cpu : Cpu arch)
  | switch (next : Thread)

/-- The frame of the call is on the stack. -/
structure OnStack (stack : Window) (caller : Cpu arch) : Prop where
  fits : caller.Fits
  low : stack.start ≤ caller.base
  high : caller.callSp + argumentBytes arch ≤ stack.finish

/-- A thread may do whatever it likes, except to the frames and the stack pointers of the threads
that wait in `context_switch`. It switches to another thread, with a frame on its own stack. -/
def Allowed (layout : Layout arch Thread) (world : World arch Thread) : Action arch Thread → Prop
  | .work cpu => ∀ thread caller, world.calls thread = some caller →
    (∀ x, caller.base ≤ x → x < caller.callSp → cpu.memory x = world.cpu.memory x) ∧
      ∀ x, layout.slot thread ≤ x → x < layout.slot thread + arch.wordBytes →
        cpu.memory x = world.cpu.memory x
  | .switch next => next ≠ world.current ∧ OnStack (layout.stack world.current) world.cpu ∧
    Passes world.cpu (layout.slot world.current)
      (Machine.load world.cpu.memory (layout.slot next) arch.wordBytes)

/-- The frame of a waiting thread is on its stack, and its stack pointer leads there. -/
structure Waiting (layout : Layout arch Thread) (memory : Memory) (thread : Thread)
    (caller : Cpu arch) : Prop where
  place : OnStack (layout.stack thread) caller
  pointer : Machine.load memory (layout.slot thread) arch.wordBytes = caller.base
  frame : HoldsFrame caller memory

/-- All waiting threads can be resumed. -/
def Ready (layout : Layout arch Thread) (world : World arch Thread) : Prop :=
  ∀ thread caller, world.calls thread = some caller →
    thread ≠ world.current ∧ Waiting layout world.cpu.memory thread caller

variable {layout : Layout arch Thread} {world next : World arch Thread} {thread other : Thread}
  {caller cpu : Cpu arch} {memory : Memory}

theorem Waiting.congr {changed : Memory} (waiting : Waiting layout memory thread caller)
    (frame : ∀ x, caller.base ≤ x → x < caller.callSp → changed x = memory x)
    (slot : ∀ x, layout.slot thread ≤ x → x < layout.slot thread + arch.wordBytes →
      changed x = memory x) : Waiting layout changed thread caller where
  place := waiting.place
  pointer := by
    rw [← waiting.pointer]
    exact load_congr slot
  frame := waiting.frame.congr waiting.place.fits frame

/-- The instruction changes the memory. -/
def Instruction.writes : Instruction → Bool
  | .push _ | .pusha | .fxsave _ | .store _ _ => true
  | _ => false

theorem popInto_memory (registers : List Register) :
    (registers.foldl Cpu.popInto cpu).memory = cpu.memory := by
  induction registers generalizing cpu with
  | nil => rfl
  | cons register registers ih =>
    rw [List.foldl_cons, ih]
    rfl

theorem resumeCode_memory {after : Cpu arch} (ran : run exec cpu (resumeCode arch) = some after) :
    after.memory = cpu.memory := by
  have silent : ∀ instruction ∈ resumeCode arch, instruction.writes = false := by
    cases arch <;> decide
  refine @run_preserves _ _ _ _ _ (fun state => state.memory = cpu.memory) _ ?_ rfl ran
  intro state instruction next member same executed
  refine Eq.trans ?_ same
  cases instruction with
  | push | pusha | fxsave | store => cases silent _ member
  | pop | mov | andi | subi | addi | load | ret =>
    cases executed
    rfl
  | fxrstor address =>
    rw [exec] at executed
    split at executed
    · cases executed
      rfl
    · cases executed
  | popa =>
    cases executed
    exact (popInto_memory _).trans (popInto_memory _)

/-- The part of a switch that the thread which is left takes part in. It leaves the stacks and the
stack pointers of the other threads alone. -/
theorem suspend_allowed (allowed : Allowed layout world (.switch other)) :
    ∃ cpu, run exec world.cpu.call (suspendCode arch) = some cpu ∧
      (cpu.registers .sp).toNat = Machine.load world.cpu.memory (layout.slot other) arch.wordBytes ∧
      Waiting layout cpu.memory world.current world.cpu ∧
      ∀ thread, thread ≠ world.current →
        (∀ x, (layout.stack thread).start ≤ x → x < (layout.stack thread).finish →
          cpu.memory x = world.cpu.memory x) ∧
        ∀ x, layout.slot thread ≤ x → x < layout.slot thread + arch.wordBytes →
          cpu.memory x = world.cpu.memory x := by
  obtain ⟨different, onStack, passes⟩ := allowed
  have bounded := layout.bounded world.current
  have apart := layout.apart world.current world.current
  obtain ⟨bottom, top, link⟩ := onStack.fits.places
  have low := onStack.low
  have high := onStack.high
  obtain ⟨cpu, ran, sp, frame, pointer, outside⟩ := suspend_spec onStack.fits passes
    (Nat.le_trans high bounded) (by omega)
  refine ⟨cpu, ran, sp, ⟨onStack, pointer, frame⟩, ?_⟩
  intro thread distinct
  have order := layout.stacksApart thread world.current distinct
  have slots := layout.slotsApart thread world.current distinct
  have here := layout.apart world.current thread
  have there := layout.apart thread world.current
  constructor
  all_goals
    intro x start finish
    exact outside x (by omega) (by omega)

theorem Ready.waits (ready : Ready layout world) (others : ∀ thread, thread ≠ world.current →
      (∀ x, (layout.stack thread).start ≤ x → x < (layout.stack thread).finish → memory x = world.cpu.memory x) ∧
      ∀ x, layout.slot thread ≤ x → x < layout.slot thread + arch.wordBytes → memory x = world.cpu.memory x)
    (called : world.calls thread = some caller) : Waiting layout memory thread caller := by
  obtain ⟨distinct, waiting⟩ := ready thread caller called
  obtain ⟨stack, slot⟩ := others thread distinct
  refine waiting.congr (fun x start finish => ?_) slot
  have low := waiting.place.low
  have high := waiting.place.high
  exact stack x (by omega) (by omega)

section
variable [DecidableEq Thread]

def step (world : World arch Thread) : Action arch Thread → Option (World arch Thread)
  | .work cpu => some { world with cpu }
  | .switch next => (run exec world.cpu.call (contextSwitch arch)).map fun cpu =>
    { cpu
      current := next
      calls := update (update world.calls world.current (some world.cpu)) next none }

theorem Ready.step (ready : Ready layout world) {action : Action arch Thread}
    (allowed : Allowed layout world action) (stepped : step world action = some next) :
    Ready layout next := by
  cases action with
  | work cpu =>
    cases stepped
    intro thread caller called
    obtain ⟨distinct, waiting⟩ := ready thread caller called
    obtain ⟨frame, slot⟩ := allowed thread caller called
    exact ⟨distinct, waiting.congr frame slot⟩
  | switch other =>
    obtain ⟨cpu, resumed, rfl⟩ := Option.map_eq_some_iff.mp stepped
    obtain ⟨middle, suspended, -, here, others⟩ := suspend_allowed allowed
    rw [contextSwitch, run_append, suspended, Option.bind_some] at resumed
    intro thread caller called
    by_cases same : thread = other
    · subst same
      simp at called
    · refine ⟨same, ?_⟩
      rw [resumeCode_memory resumed]
      simp only [update_of_ne same] at called
      by_cases left : thread = world.current
      · subst left
        rw [update_self] at called
        exact Option.some.inj called ▸ here
      · rw [update_of_ne left] at called
        exact ready.waits others called

/-- A thread that is switched back to returns from its call. -/
theorem Ready.returns (ready : Ready layout world) (called : world.calls thread = some caller)
    (allowed : Allowed layout world (.switch thread)) :
    ∃ after, Context.step world (.switch thread) = some after ∧ after.current = thread ∧
      Returned caller after.cpu := by
  obtain ⟨cpu, suspended, sp, -, others⟩ := suspend_allowed allowed
  obtain ⟨-, before⟩ := ready thread caller called
  obtain ⟨place, -, frame⟩ := ready.waits others called
  rw [before.pointer] at sp
  obtain ⟨resumed, ran, returned⟩ := resume_spec place.fits frame sp
  have stepped : Context.step world (.switch thread) = some {
      cpu := resumed
      current := thread
      calls := update (update world.calls world.current (some world.cpu)) thread none } := by
    rw [Context.step, contextSwitch, run_append, suspended, Option.bind_some, ran, Option.map_some]
  exact ⟨_, stepped, rfl, returned⟩

/-- The call of a thread is kept until it is switched back to. -/
theorem step_calls {action : Action arch Thread} (away : action ≠ .switch thread)
    (stepped : step world action = some next)
    (called : world.calls thread = some caller ∧ thread ≠ world.current) :
    next.calls thread = some caller ∧ thread ≠ next.current := by
  obtain ⟨called, distinct⟩ := called
  cases action with
  | work cpu =>
    cases stepped
    exact ⟨called, distinct⟩
  | switch other =>
    obtain ⟨cpu, -, rfl⟩ := Option.map_eq_some_iff.mp stepped
    have different : thread ≠ other := by
      rintro rfl
      exact away rfl
    refine ⟨?_, different⟩
    dsimp only
    rw [update_of_ne different, update_of_ne distinct]
    exact called

/-- A thread calls `context_switch` at the end of some run. Other threads run, and switch among each
other. When the thread is switched back to, it returns from the call with its registers and its
floating point state. -/
theorem context_switch_returns {start atCall : World arch Thread}
    {earlier between : List (Action arch Thread)}
    (fresh : ∀ thread, start.calls thread = none)
    (legal : Legal step (Allowed layout) start
      (earlier ++ (.switch other :: between ++ [.switch thread])))
    (called : run step start earlier = some atCall) (current : atCall.current = thread)
    (away : .switch thread ∉ between)
    (ran : run step atCall (.switch other :: between) = some world) :
    ∃ after, step world (.switch thread) = some after ∧ after.current = thread ∧
      Returned atCall.cpu after.cpu := by
  obtain ⟨legalEarlier, legalLater⟩ := legal_append.mp legal
  obtain ⟨legalBetween, legalBack⟩ := legal_append.mp (legalLater atCall called)
  obtain ⟨allowed, -⟩ := legalBack world ran
  have readyAtCall : Ready layout atCall := by
    refine legal_preserves (fun _ _ _ ready => ready.step) legalEarlier ?_ called
    intro thread caller claimed
    rw [fresh] at claimed
    cases claimed
  have ready : Ready layout world :=
    legal_preserves (fun _ _ _ ready => ready.step) legalBetween readyAtCall ran
  obtain ⟨left, stepped, ran⟩ := Option.bind_eq_some_iff.mp ran
  have distinct : thread ≠ other := by
    rw [← current]
    exact Ne.symm legalBetween.1.1
  have leaves : left.calls thread = some atCall.cpu ∧ thread ≠ left.current := by
    obtain ⟨cpu, -, rfl⟩ := Option.map_eq_some_iff.mp stepped
    refine ⟨?_, distinct⟩
    dsimp only
    rw [update_of_ne distinct, current, update_self]
  have waits : world.calls thread = some atCall.cpu ∧ thread ≠ world.current := by
    refine @run_preserves _ _ _ _ _
      (fun world => world.calls thread = some atCall.cpu ∧ thread ≠ world.current) _ ?_ leaves ran
    intro world action next member waits stepped
    refine step_calls ?_ stepped waits
    rintro rfl
    exact away member
  exact ready.returns waits.1 allowed

/-- Two threads, with a page for the stack of each. -/
def sampleLayout : Layout .x86_64 Bool where
  stack thread := if thread then ⟨0x3000, 0x4000⟩ else ⟨0x1000, 0x2000⟩
  slot thread := if thread then 0x108 else 0x100
  bounded := by decide
  stacksApart := by decide
  slotsApart := by decide
  apart := by decide

/-- A thread that is about to switch, with its stack pointer at an odd place, and the stack pointer
of the other thread at `0x3000`. -/
def sampleCpu : Cpu .x86_64 where
  registers register := if register = .sp then 0x1ffb else if register = .di then 0x100 else 0x3000
  ip := 0x5000
  fpu _ := 1
  memory x := if x = 0x109 then 0x30 else 0

def sampleWorld : World .x86_64 Bool where
  cpu := sampleCpu
  current := false
  calls _ := none

/-- The other thread, before it switches back. -/
def sampleReply (memory : Memory) : Cpu .x86_64 where
  registers register :=
    if register = .sp then 0x4000 else if register = .di then 0x108
    else BitVec.ofNat _ (Machine.load memory 0x100 8)
  ip := 0x6000
  fpu _ := 2
  memory := memory

theorem sampleReply_onStack (memory : Memory) : OnStack ⟨0x3000, 0x4000⟩ (sampleReply memory) := by
  have sp : (sampleReply memory).callSp = 0x4000 := rfl
  have top : (sampleReply memory).top = 0x3ff0 := by
    rw [Cpu.top, Cpu.link, sp]
    decide
  have saved : savedBytes .x86_64 = 128 := by decide
  have base : (sampleReply memory).base = 0x3d70 := by
    unfold Cpu.base
    rw [top, saved]
  refine ⟨⟨?_, ?_⟩, ?_, ?_⟩
  · rw [sp]
    decide
  · rw [top]
    decide
  · rw [base]
    decide
  · rw [sp]
    decide

theorem resumeCode_some (aligned : (cpu.registers .sp).toNat % 16 = 0) :
    ∃ resumed, run exec cpu (resumeCode arch) = some resumed := by
  have restores : exec cpu (.fxrstor .sp) = _ := if_pos aligned
  rw [resumeCode, restoreFloatingPoint, List.append_assoc, List.cons_append, run, restores]
  cases arch <;> exact ⟨_, rfl⟩

theorem context_switch_returns_sample : ∃ memory world after,
    run step sampleWorld [.switch true, .work (sampleReply memory)] = some world ∧
      step world (.switch false) = some after ∧ after.current = false ∧ Returned sampleCpu after.cpu := by
  have leaves : Allowed sampleLayout sampleWorld (.switch true) :=
    ⟨by decide, ⟨⟨by decide, by decide⟩, by decide, by decide⟩, by decide, by decide⟩
  have ready : Ready sampleLayout sampleWorld := fun _ _ claimed => by cases claimed
  obtain ⟨middle, suspended, sp, -, -⟩ := suspend_allowed leaves
  have pointer : Machine.load sampleCpu.memory 0x108 8 = 0x3000 := by decide
  obtain ⟨resumed, ran⟩ := @resumeCode_some _ middle (by rw [sp]; exact congrArg (· % 16) pointer)
  have left : step sampleWorld (.switch true) = some {
      cpu := resumed
      current := true
      calls := update (update sampleWorld.calls false (some sampleCpu)) true none } := by
    rw [step, contextSwitch, run_append, suspended, Option.bind_some, ran]
    rfl
  have returns : ∀ next, step sampleWorld (.switch true) = some next →
      Legal step (Allowed sampleLayout) next [.work (sampleReply resumed.memory), .switch false] := by
    intro next stepped
    obtain rfl := Option.some.inj (left.symm.trans stepped)
    refine ⟨fun _ _ _ => ⟨fun _ _ _ => rfl, fun _ _ _ => rfl⟩, ?_⟩
    intro next stepped
    cases stepped
    exact ⟨⟨Bool.false_ne_true, sampleReply_onStack resumed.memory, rfl,
      @toNat_ofNat_load .x86_64 resumed.memory 0x100⟩, fun _ _ => trivial⟩
  have started : run step sampleWorld [.switch true, .work (sampleReply resumed.memory)] = _ :=
    Option.bind_eq_some_iff.mpr ⟨_, left, rfl⟩
  obtain ⟨after, result⟩ := @context_switch_returns .x86_64 Bool sampleLayout _ false true _ sampleWorld
    sampleWorld [] [.work (sampleReply resumed.memory)] (fun _ => rfl) ⟨leaves, returns⟩ rfl rfl
    (by simp) started
  exact ⟨resumed.memory, _, after, started, result⟩

end

end FlapjackOS.Context
