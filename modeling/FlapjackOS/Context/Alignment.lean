import FlapjackOS.Context.Creation
import FlapjackOS.Context.Threads

namespace FlapjackOS.Context

open Machine Runs

variable {arch : Arch} {Thread : Type}

section
variable {cpu caller : Cpu arch}

/-- The address that a `fxsave` or `fxrstor` uses. -/
def Instruction.operands (cpu : Cpu arch) : Instruction → List Nat
  | .fxsave address | .fxrstor address => [(cpu.registers address).toNat]
  | _ => []

def operandsOf (cpu : Cpu arch) (code : List Instruction) : List Nat := traceOf Instruction.operands cpu code

theorem operandsOf_saveFloatingPoint {saved : Cpu arch} (ran : run exec cpu saveFloatingPoint = some saved) :
    operandsOf cpu saveFloatingPoint = [(saved.registers .sp).toNat] := by
  obtain ⟨lowered, moved, ran⟩ := Option.bind_eq_some_iff.mp ran
  obtain ⟨stored, saves, finished⟩ := Option.bind_eq_some_iff.mp ran
  cases finished
  have same : saved.registers = lowered.registers := by
    rw [exec] at saves
    split at saves
    · cases saves
      rfl
    · cases saves
  rw [same, operandsOf, saveFloatingPoint, traceOf, moved, Option.elim_some, traceOf, saves]
  rfl

theorem operandsOf_suspendCode (fits : caller.Fits) :
    operandsOf caller.call (suspendCode arch) = [caller.base] := by
  obtain ⟨saved, saves, building, -⟩ := save_spec fits
  have whole := saves
  rw [run_append] at saves
  obtain ⟨middle, pushes, saves⟩ := Option.bind_eq_some_iff.mp saves
  have before : operandsOf caller.call (setupFrame ++ saveRegisters arch) = [] := by
    apply traceOf_eq_nil
    cases arch <;> simp [setupFrame, saveRegisters, Instruction.operands]
  have afterwards : operandsOf saved (switchStacks arch) = [] := by
    apply traceOf_eq_nil
    cases arch <;> simp [switchStacks, Instruction.operands]
  have saving := operandsOf_saveFloatingPoint saves
  rw [operandsOf] at before afterwards saving ⊢
  rw [suspendCode, traceOf_append _ whole, traceOf_append _ pushes, before, saving, afterwards, building.sp]
  rfl

theorem operandsOf_resumeCode (cpu : Cpu arch) :
    operandsOf cpu (resumeCode arch) = [(cpu.registers .sp).toNat] := by
  have rest : ∀ cpu : Cpu arch, operandsOf cpu ([.addi 512 .sp] ++ restoreRegisters arch ++ tearDownFrame) = [] := by
    intro cpu
    apply traceOf_eq_nil
    cases arch <;> simp [restoreRegisters, tearDownFrame, Instruction.operands]
  rw [operandsOf, resumeCode, restoreFloatingPoint]
  change [(cpu.registers .sp).toNat] ++ (exec cpu (.fxrstor .sp)).elim []
    (operandsOf · ([.addi 512 .sp] ++ restoreRegisters arch ++ tearDownFrame)) = _
  cases exec cpu (.fxrstor .sp) with
  | none => rfl
  | some restored => rw [Option.elim_some, rest, List.append_nil]

end

section

/-- What the address of the backing leaves when it is divided by 16, if the constructor succeeds. -/
def residue : Arch → Nat
  | .i386 => 4
  | .x86_64 => 8

theorem freshBase_aligned_iff (arch : Arch) (backing : Nat) :
    freshBase arch backing % 16 = 0 ↔ backing % 16 = residue arch := by
  cases arch with
  | i386 =>
    change (backing + 4096 - 52 - 512) % 16 = 0 ↔ backing % 16 = 4
    omega
  | x86_64 =>
    change (backing + 4096 - 152 - 512) % 16 = 0 ↔ backing % 16 = 8
    omega

variable [DecidableEq Thread]

section
variable (layout : Layout arch Thread)

/-- All threads but the current one have been constructed and not run yet. -/
structure Started (backing : Thread → Nat) (world : World arch Thread) : Prop where
  calls : ∀ thread, world.calls thread = none
  stack : ∀ thread, thread ≠ world.current → layout.stack thread = ⟨backing thread, backing thread + 4096⟩
  pointer : ∀ thread, thread ≠ world.current →
    Machine.load world.cpu.memory (layout.slot thread) arch.wordBytes = freshBase arch (backing thread)

/-- A thread also leaves alone the stack pointers of the threads that have not run yet. -/
def Permitted (world : World arch Thread) (action : Action arch Thread) : Prop :=
  Allowed layout world action ∧ ∀ cpu, action = .work cpu → ∀ thread, thread ≠ world.current →
    ∀ x, layout.slot thread ≤ x → x < layout.slot thread + arch.wordBytes → cpu.memory x = world.cpu.memory x

/-- The assertion of the constructor holds for every thread, and every `fxsave` and `fxrstor` of the
switches that follow has an operand that is a multiple of 16. -/
structure FpuAligned (backing : Thread → Nat) (start : World arch Thread) : Prop where
  assertion : ∀ thread, thread ≠ start.current → ∀ memory fpu (entry : Entry arch),
    (Context.thread memory (backing thread) fpu entry).isSome
  operands : ∀ actions world next, Legal step (Permitted layout) start actions →
    run step start actions = some world → Permitted layout world (.switch next) →
    ∀ operand ∈ operandsOf world.cpu.call (contextSwitch arch), operand % 16 = 0

/-- The saved stack pointers are multiples of 16. -/
def PointersAligned (world : World arch Thread) : Prop :=
  ∀ thread, thread ≠ world.current →
    Machine.load world.cpu.memory (layout.slot thread) arch.wordBytes % 16 = 0

end

variable {layout : Layout arch Thread} {world next : World arch Thread} {backing : Thread → Nat}

/-- What a switch leaves in the slots of the stack pointers. -/
theorem switch_pointers (aligned : PointersAligned layout world) (allowed : Allowed layout world (.switch other)) :
    ∃ cpu, run exec world.cpu.call (suspendCode arch) = some cpu ∧ (cpu.registers .sp).toNat % 16 = 0 ∧
      ∀ thread, thread ≠ other →
        Machine.load cpu.memory (layout.slot thread) arch.wordBytes % 16 = 0 := by
  obtain ⟨cpu, ran, sp, suspended, others⟩ := suspend_allowed allowed
  obtain ⟨different, -, -⟩ := allowed
  refine ⟨cpu, ran, ?_, ?_⟩
  · rw [sp]
    exact aligned other different
  · intro thread _
    by_cases here : thread = world.current
    · rw [here, suspended.pointer]
      exact Cpu.base_aligned
    · rw [load_congr (others thread here).2]
      exact aligned thread here

theorem permitted_step (aligned : PointersAligned layout world) (permitted : Permitted layout world action)
    (stepped : step world action = some next) : PointersAligned layout next := by
  cases action with
  | work cpu =>
    cases stepped
    intro thread waiting
    rw [← aligned thread waiting]
    exact congrArg (· % 16) (load_congr (permitted.2 cpu rfl thread waiting))
  | switch other =>
    obtain ⟨cpu, switched, rfl⟩ := Option.map_eq_some_iff.mp stepped
    obtain ⟨middle, suspended, -, pointers⟩ := switch_pointers aligned permitted.1
    rw [contextSwitch, run_append, suspended, Option.bind_some] at switched
    intro thread waiting
    dsimp only
    rw [resumeCode_memory switched]
    exact pointers thread waiting

/-- The floating point state is kept at multiples of 16 exactly if the backing of each thread is at a
multiple of 16 and 8 or, on the i386, 4 bytes more. -/
theorem fpuAligned_iff (layout : Layout arch Thread) (backing : Thread → Nat) (start : World arch Thread)
    (started : Started layout backing start) :
    FpuAligned layout backing start ↔ ∀ thread, thread ≠ start.current → backing thread % 16 = residue arch := by
  constructor
  · intro aligned thread waiting
    have assertion := aligned.assertion thread waiting (fun _ => 0) (fun _ => 0) ⟨0, 0, 0, 0⟩
    exact (freshBase_aligned_iff arch _).mp ((thread_isSome_iff _ _ _ _).mp assertion)
  · intro placed
    have based (thread : Thread) (waiting : thread ≠ start.current) : freshBase arch (backing thread) % 16 = 0 :=
      (freshBase_aligned_iff arch _).mpr (placed thread waiting)
    constructor
    · intro thread waiting memory fpu entry
      exact (thread_isSome_iff _ _ _ _).mpr (based thread waiting)
    · intro actions world next legal ran permitted
      have first : PointersAligned layout start := by
        intro thread waiting
        rw [started.pointer thread waiting]
        exact based thread waiting
      have reached : PointersAligned layout world :=
        legal_preserves (fun _ _ _ aligned => permitted_step aligned) legal first ran
      obtain ⟨cpu, suspended, pointer, -⟩ := switch_pointers reached permitted.1
      have saving := operandsOf_suspendCode permitted.1.2.1.fits
      have restoring := operandsOf_resumeCode cpu
      rw [operandsOf] at saving restoring ⊢
      rw [contextSwitch, traceOf_append _ suspended, saving, restoring]
      intro operand member
      rcases List.mem_append.mp member with saves | restores
      · rw [List.mem_singleton.mp saves]
        exact Cpu.base_aligned
      · rw [List.mem_singleton.mp restores]
        exact pointer

/-- Two threads, the second one with its stack at `0x3008`. -/
def alignedLayout : Layout .x86_64 Bool where
  stack thread := if thread then ⟨0x3008, 0x4008⟩ else ⟨0x1000, 0x2000⟩
  slot := sampleLayout.slot
  bounded := by decide
  stacksApart := by decide
  slotsApart := sampleLayout.slotsApart
  apart := by decide

/-- The first thread runs, and the stack pointer of the second one is `0x3d70`. -/
def alignedWorld : World .x86_64 Bool where
  cpu :=
    { registers := fun _ => 0
      ip := 0
      fpu := fun _ => 0
      memory := fun x => if x = 0x108 then 0x70 else if x = 0x109 then 0x3d else 0 }
  current := false
  calls _ := none

theorem fpuAligned_sample : FpuAligned alignedLayout (fun _ => 0x3008) alignedWorld := by
  have started : Started alignedLayout (fun _ => 0x3008) alignedWorld :=
    ⟨fun _ => rfl, by decide, by decide⟩
  exact (fpuAligned_iff alignedLayout (fun _ => 0x3008) alignedWorld started).mpr (by decide)

/-- A backing at a multiple of 16 fails the assertion of both constructors. -/
theorem aligned_backing_fails :
    threadX86_64 (fun _ => 0) 0x3000 (fun _ => 0) ⟨0, 0, 0, 0⟩ = none ∧
      threadI386 (fun _ => 0) 0x3000 (fun _ => 0) ⟨0, 0, 0, 0⟩ = none := by
  have fails (arch : Arch) : thread (fun _ => 0) 0x3000 (fun _ => 0) (⟨0, 0, 0, 0⟩ : Entry arch) = none := by
    rw [← Option.not_isSome_iff_eq_none, thread_isSome_iff, freshBase_aligned_iff]
    cases arch <;> decide
  exact ⟨fails .x86_64, fails .i386⟩

end

end FlapjackOS.Context
