import FlapjackOS.Machine.Arch
import FlapjackOS.Machine.Runs
import FlapjackOS.Machine.Stack
import Mathlib.Logic.Function.Basic

/-! The processor as the context switches of both platforms use it, and their code. `none` stands
for a fault. -/

namespace FlapjackOS.Context

open Machine

/-- The registers, under the names that both platforms share. Only the first eight exist on the
i386. -/
inductive Register where
  | ax | cx | dx | bx | sp | bp | si | di
  | r8 | r9 | r10 | r11 | r12 | r13 | r14 | r15
  deriving DecidableEq, Repr

/-- The floating point state is the image that `fxsave` writes. `ip` is the address of the next
instruction of the caller. -/
structure Cpu (arch : Arch) where
  registers : Register → BitVec arch.bits
  ip : BitVec arch.bits
  fpu : Fin 512 → UInt8
  memory : Memory

variable {arch : Arch}

namespace Cpu
variable (cpu : Cpu arch)

def set (register : Register) (value : BitVec arch.bits) : Cpu arch :=
  { cpu with registers := Function.update cpu.registers register value }

def pushWord (value : BitVec arch.bits) : Cpu arch :=
  { cpu.set .sp (cpu.registers .sp - BitVec.ofNat _ arch.wordBytes) with
    memory := store cpu.memory (cpu.registers .sp - BitVec.ofNat _ arch.wordBytes).toNat
      arch.wordBytes value.toNat }

/-- The word on top of the stack. -/
def topWord : BitVec arch.bits :=
  BitVec.ofNat _ (load cpu.memory (cpu.registers .sp).toNat arch.wordBytes)

def dropWord : Cpu arch := cpu.set .sp (cpu.registers .sp + BitVec.ofNat _ arch.wordBytes)

/-- The increment comes first, so that `pop %rsp` leaves the word in the register. -/
def popInto (register : Register) : Cpu arch := cpu.dropWord.set register cpu.topWord

/-- `call`, which pushes the return address. -/
def call : Cpu arch := cpu.pushWord cpu.ip

end Cpu

/-- Operands are in the order of the source: the destination comes last. -/
inductive Instruction where
  | push (register : Register)
  | pop (register : Register)
  | mov (source destination : Register)
  | andi (immediate : Int) (register : Register)
  | subi (immediate : Nat) (register : Register)
  | addi (immediate : Nat) (register : Register)
  | fxsave (address : Register)
  | fxrstor (address : Register)
  | store (source address : Register)
  | load (displacement : Nat) (address destination : Register)
  | pusha
  | popa
  | ret
  deriving DecidableEq, Repr

def exec (cpu : Cpu arch) : Instruction → Option (Cpu arch)
  | .push register => some (cpu.pushWord (cpu.registers register))
  | .pop register => some (cpu.popInto register)
  | .mov source destination => some (cpu.set destination (cpu.registers source))
  | .andi immediate register =>
    some (cpu.set register (cpu.registers register &&& BitVec.ofInt _ immediate))
  | .subi immediate register =>
    some (cpu.set register (cpu.registers register - BitVec.ofNat _ immediate))
  | .addi immediate register =>
    some (cpu.set register (cpu.registers register + BitVec.ofNat _ immediate))
  | .fxsave address =>
    let base := (cpu.registers address).toNat
    if base % 16 = 0 then
      some { cpu with
        memory := fun x =>
          if inside : base ≤ x ∧ x < base + 512 then cpu.fpu ⟨x - base, by omega⟩ else cpu.memory x }
    else none
  | .fxrstor address =>
    let base := (cpu.registers address).toNat
    if base % 16 = 0 then some { cpu with fpu := fun k => cpu.memory (base + k) } else none
  | .store source address =>
    some { cpu with
      memory := Machine.store cpu.memory (cpu.registers address).toNat arch.wordBytes
        (cpu.registers source).toNat }
  | .load displacement address destination =>
    some (cpu.set destination (BitVec.ofNat _ (Machine.load cpu.memory
      (cpu.registers address + BitVec.ofNat _ displacement).toNat arch.wordBytes)))
  | .pusha =>
    -- The stack pointer is pushed as it was before the instruction.
    some ([.ax, .cx, .dx, .bx, .sp, .bp, .si, .di].foldl
      (fun pushed register => pushed.pushWord (cpu.registers register)) cpu)
  | .popa =>
    -- The stack pointer on the stack is passed over.
    some ([.bx, .dx, .cx, .ax].foldl Cpu.popInto ([.di, .si, .bp].foldl Cpu.popInto cpu).dropWord)
  | .ret => some { cpu.dropWord with ip := cpu.topWord }

section
variable (arch)

def setupFrame : List Instruction := [.push .bp, .mov .sp .bp, .andi (-16) .sp]

def saveRegisters : List Instruction :=
  match arch with
  | .i386 => [.pusha]
  | .x86_64 =>
    [.push .ax, .push .cx, .push .dx, .push .bx, .push .sp, .push .bp, .push .si, .push .di,
     .push .r8, .push .r9, .push .r10, .push .r11, .push .r12, .push .r13, .push .r14, .push .r15]

def saveFloatingPoint : List Instruction := [.subi 512 .sp, .fxsave .sp]

/-- The stack pointer is stored for the old thread, and that of the new one is taken. -/
def switchStacks : List Instruction :=
  match arch with
  | .i386 => [.load 8 .bp .ax, .store .sp .ax, .load 12 .bp .ax, .mov .ax .sp]
  | .x86_64 => [.store .sp .di, .mov .si .sp]

def restoreFloatingPoint : List Instruction := [.fxrstor .sp, .addi 512 .sp]

def restoreRegisters : List Instruction :=
  match arch with
  | .i386 => [.popa]
  | .x86_64 =>
    [.pop .r15, .pop .r14, .pop .r13, .pop .r12, .pop .r11, .pop .r10, .pop .r9, .pop .r8,
     .pop .di, .pop .si, .pop .bp, .pop .sp, .pop .bx, .pop .dx, .pop .cx, .pop .ax]

def tearDownFrame : List Instruction := [.mov .bp .sp, .pop .bp, .ret]

/-- The code up to the switch of the stacks, and the code after it. -/
def suspendCode : List Instruction :=
  setupFrame ++ saveRegisters arch ++ saveFloatingPoint ++ switchStacks arch

def resumeCode : List Instruction := restoreFloatingPoint ++ restoreRegisters arch ++ tearDownFrame

/-- `i386_context_switch` and `x86_64_context_switch`. -/
def contextSwitch : List Instruction := suspendCode arch ++ resumeCode arch

end

end FlapjackOS.Context
