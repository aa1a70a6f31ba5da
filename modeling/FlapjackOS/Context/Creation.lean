import FlapjackOS.Common.String
import FlapjackOS.Context.Frame
import FlapjackOS.Machine.Window

namespace FlapjackOS.Context

open Function Machine Runs

/-- `StaticStack<PAGE_SIZE>`, with the memory that its backing is in. -/
structure StaticStack where
  memory : Memory
  stackPointer : Nat

namespace StaticStack

def create (arch : Arch) (memory : Memory) (backing : Nat) : StaticStack where
  memory := CString.memset arch memory backing 0 4096
  stackPointer := backing + 4096

/-- `push4`, `push8` and `push<uint32_t>` for a machine word. -/
def push (arch : Arch) (stack : StaticStack) (value : Nat) : StaticStack where
  memory := store stack.memory (stack.stackPointer - arch.wordBytes) arch.wordBytes value
  stackPointer := stack.stackPointer - arch.wordBytes

def pushes (arch : Arch) (stack : StaticStack) (values : List Nat) : StaticStack :=
  values.foldl (push arch) stack

/-- The effect of `fxsave`. -/
def writeImage (memory : Memory) (base : Nat) (fpu : Fin 512 → UInt8) : Memory := fun x =>
  if inside : base ≤ x ∧ x < base + 512 then fpu ⟨x - base, by omega⟩ else memory x

/-- The end of both constructors: the assertion and `fxsave`. -/
def saveFpu (stack : StaticStack) (fpu : Fin 512 → UInt8) : Option StaticStack :=
  if (stack.stackPointer - 512) % 16 = 0 then
    some
      { memory := writeImage stack.memory (stack.stackPointer - 512) fpu
        stackPointer := stack.stackPointer - 512 }
  else none

end StaticStack

/-- The addresses that the constructor puts on the stack. -/
structure Entry (arch : Arch) where
  vanish : BitVec arch.bits
  threadStart : BitVec arch.bits
  function : BitVec arch.bits
  param : BitVec arch.bits

/-- `InitialRegisterValue` -/
def initialRegisterValue : (arch : Arch) → BitVec arch.bits
  | .i386 => 0xcdcdcdcd#32
  | .x86_64 => 0xcdcdcdcdcdcdcdcd#64

def threadI386 (memory : Memory) (backing : Nat) (fpu : Fin 512 → UInt8) (entry : Entry .i386) :
    Option StaticStack :=
  let initial := (initialRegisterValue .i386).toNat
  let stack := (StaticStack.create .i386 memory backing).pushes .i386
    [entry.function.toNat, entry.param.toNat, entry.vanish.toNat, entry.threadStart.toNat]
  let EBP := stack.stackPointer - 4
  let stack := stack.push .i386 EBP
  let ESP := stack.stackPointer
  (stack.pushes .i386
    [initial, initial, initial, initial, -- EAX, ECX, EDX, EBX
     ESP, EBP,
     initial, initial] -- ESI, EDI
    ).saveFpu fpu

def threadX86_64 (memory : Memory) (backing : Nat) (fpu : Fin 512 → UInt8) (entry : Entry .x86_64) :
    Option StaticStack :=
  let initial := (initialRegisterValue .x86_64).toNat
  let stack := (StaticStack.create .x86_64 memory backing).pushes .x86_64
    [entry.vanish.toNat, entry.threadStart.toNat]
  let RBP := stack.stackPointer - 8
  let stack := stack.push .x86_64 RBP
  let RSP := stack.stackPointer
  (stack.pushes .x86_64
    [initial, initial, initial, initial, -- RAX, RCX, RDX, RBX
     RSP, RBP,
     entry.function.toNat, entry.param.toNat, -- RSI, RDI
     initial, initial, initial, initial, initial, initial, initial, initial] -- R8 to R15
    ).saveFpu fpu

/-- `Thread_i386` and `Thread_x86_64`. `none` is a failed assertion. -/
def thread : {arch : Arch} → Memory → Nat → (Fin 512 → UInt8) → Entry arch → Option StaticStack
  | .i386 => threadI386
  | .x86_64 => threadX86_64

/-- The blocks that an instruction reads. -/
def Instruction.reads (cpu : Cpu arch) : Instruction → List (Nat × Nat)
  | .pop _ | .ret => [((cpu.registers .sp).toNat, arch.wordBytes)]
  | .popa => [((cpu.registers .sp).toNat, 8 * arch.wordBytes)]
  | .fxrstor address => [((cpu.registers address).toNat, 512)]
  | .load displacement address _ =>
    [((cpu.registers address + BitVec.ofNat _ displacement).toNat, arch.wordBytes)]
  | _ => []

/-- What is observed of a piece of code while it runs, in order. -/
def traceOf (observe : Cpu arch → Instruction → List α) (cpu : Cpu arch) : List Instruction → List α
  | [] => []
  | instruction :: rest =>
    observe cpu instruction ++ (exec cpu instruction).elim [] (traceOf observe · rest)

def readsOf (cpu : Cpu arch) (code : List Instruction) : List (Nat × Nat) :=
  traceOf Instruction.reads cpu code

section
variable {arch : Arch} {stack : StaticStack} {values : List Nat}

theorem pushes_append (more : List Nat) :
    stack.pushes arch (values ++ more) = (stack.pushes arch values).pushes arch more := List.foldl_append

theorem push_stackPointer (value : Nat) :
    (stack.push arch value).stackPointer = stack.stackPointer - arch.wordBytes := rfl

theorem pushes_stackPointer (arch : Arch) (stack : StaticStack) (values : List Nat) :
    (stack.pushes arch values).stackPointer = stack.stackPointer - arch.wordBytes * values.length := by
  induction values generalizing stack with
  | nil => rfl
  | cons value values ih =>
    refine (ih (stack.push arch value)).trans ?_
    rw [push_stackPointer, List.length_cons, Nat.mul_succ, Nat.add_comm, Nat.sub_add_eq]

theorem pushes_memory (arch : Arch) (stack : StaticStack) (values : List Nat) :
    (stack.pushes arch values).memory = pushAll stack.memory arch.wordBytes stack.stackPointer values := by
  induction values generalizing stack with
  | nil => rfl
  | cons value values ih => exact ih (stack.push arch value)

/-- What is pushed before the frame pointer. -/
def freshHead : {arch : Arch} → Entry arch → List Nat
  | .i386, entry =>
    [entry.function.toNat, entry.param.toNat, entry.vanish.toNat, entry.threadStart.toNat]
  | .x86_64, entry => [entry.vanish.toNat, entry.threadStart.toNat]

/-- Where the frame pointer is pushed. It is both the frame pointer and the stack pointer that the new
thread is given. -/
def freshLink (arch : Arch) (backing : Nat) : Nat :=
  backing + 4096 - arch.wordBytes * (match arch with | .i386 => 5 | .x86_64 => 3)

/-- What is pushed for the registers. -/
def freshRegisters : {arch : Arch} → Entry arch → Nat → List Nat
  | .i386, _, link =>
    let initial := (initialRegisterValue .i386).toNat
    [initial, initial, initial, initial, link, link, initial, initial]
  | .x86_64, entry, link =>
    let initial := (initialRegisterValue .x86_64).toNat
    [initial, initial, initial, initial, link, link, entry.function.toNat, entry.param.toNat,
     initial, initial, initial, initial, initial, initial, initial, initial]

/-- All the words, in the order in which they are pushed. -/
def freshWords (entry : Entry arch) (backing : Nat) : List Nat :=
  freshHead entry ++ ([freshLink arch backing] ++ freshRegisters entry (freshLink arch backing))

/-- The bytes that the constructor uses. -/
def freshBytes (arch : Arch) : Nat :=
  match arch with
  | .i386 => 52
  | .x86_64 => 152

theorem length_freshWords (entry : Entry arch) (backing : Nat) :
    arch.wordBytes * (freshWords entry backing).length = freshBytes arch := by
  cases arch <;> rfl

theorem freshLink_eq (memory : Memory) (backing : Nat) (entry : Entry arch) :
    ((StaticStack.create arch memory backing).pushes arch (freshHead entry)).stackPointer - arch.wordBytes =
      freshLink arch backing := by
  rw [pushes_stackPointer]
  cases arch with
  | i386 =>
    change backing + 4096 - 4 * 4 - 4 = backing + 4096 - 4 * 5
    omega
  | x86_64 =>
    change backing + 4096 - 8 * 2 - 8 = backing + 4096 - 8 * 3
    omega

theorem thread_eq (memory : Memory) (backing : Nat) (fpu : Fin 512 → UInt8) (entry : Entry arch) :
    thread memory backing fpu entry =
      ((StaticStack.create arch memory backing).pushes arch (freshWords entry backing)).saveFpu fpu := by
  have link := freshLink_eq memory backing entry
  rw [freshWords, pushes_append, pushes_append]
  cases arch
  all_goals
    simp only [thread, threadI386, threadX86_64, push_stackPointer]
    generalize StaticStack.create _ memory backing = created at link ⊢
    rw [← link]
    rfl

theorem freshWords_small (inside : backing + 4096 ≤ arch.modulus) (entry : Entry arch) :
    ∀ value ∈ freshWords entry backing, value < arch.modulus := by
  have link : freshLink arch backing < arch.modulus := by
    refine Nat.lt_of_lt_of_le (Nat.sub_lt (by omega) ?_) inside
    cases arch <;> decide
  have word (value : BitVec arch.bits) : value.toNat < arch.modulus := toNat_lt_modulus value
  cases arch <;> simp [freshWords, freshHead, freshRegisters, word, link]

/-- Where the stack pointer of a new thread is. -/
def freshBase (arch : Arch) (backing : Nat) : Nat := backing + 4096 - freshBytes arch - 512

theorem saveFpu_some (pointer : stack.stackPointer - 512 = base) (saves : stack.saveFpu fpu = some saved) :
    saved.stackPointer = base ∧ ∀ x, base + 512 ≤ x → saved.memory x = stack.memory x := by
  unfold StaticStack.saveFpu at saves
  rw [pointer] at saves
  by_cases aligned : base % 16 = 0
  · rw [if_pos aligned] at saves
    obtain rfl := Option.some.inj saves
    exact ⟨rfl, fun x above => dif_neg (by omega)⟩
  · rw [if_neg aligned] at saves
    cases saves

theorem freshWords_stackPointer (memory : Memory) (backing : Nat) (entry : Entry arch) :
    ((StaticStack.create arch memory backing).pushes arch (freshWords entry backing)).stackPointer =
      backing + 4096 - freshBytes arch := by
  rw [pushes_stackPointer, length_freshWords]
  rfl

/-- The assertion is about the place of the stack only. -/
theorem thread_isSome_iff (memory : Memory) (backing : Nat) (fpu : Fin 512 → UInt8) (entry : Entry arch) :
    (thread memory backing fpu entry).isSome ↔ freshBase arch backing % 16 = 0 := by
  have pointer := freshWords_stackPointer memory backing entry
  rw [thread_eq, StaticStack.saveFpu, pointer]
  split
  case isTrue aligned => exact iff_of_true rfl aligned
  case isFalse skewed => exact iff_of_false nofun skewed

theorem thread_spec (inside : backing + 4096 ≤ arch.modulus) {entry : Entry arch}
    (created : thread memory backing fpu entry = some stack) :
    stack.stackPointer = freshBase arch backing ∧ freshBase arch backing % 16 = 0 ∧
      WordsAt stack.memory arch.wordBytes (freshBase arch backing + 512) (freshWords entry backing).reverse := by
  have aligned := (thread_isSome_iff memory backing fpu entry).mp (by rw [created]; rfl)
  have bytes : freshBytes arch ≤ 152 := by cases arch <;> decide
  have length := length_freshWords entry backing
  have pointer := freshWords_stackPointer memory backing entry
  have bottom : (StaticStack.create arch memory backing).stackPointer = backing + 4096 := rfl
  have words := @WordsAt.pushAll (StaticStack.create arch memory backing).memory arch.wordBytes (backing + 4096) []
    (freshWords entry backing) trivial (by rw [length]; omega) (freshWords_small inside entry)
  rw [length, List.append_nil, ← bottom, ← pushes_memory, bottom] at words
  rw [thread_eq] at created
  have base : ((StaticStack.create arch memory backing).pushes arch
      (freshWords entry backing)).stackPointer - 512 = freshBase arch backing := by
    unfold freshBase
    rw [pointer]
  obtain ⟨moved, kept⟩ := saveFpu_some base created
  have place : freshBase arch backing + 512 = backing + 4096 - freshBytes arch := by
    unfold freshBase
    omega
  refine ⟨moved, aligned, ?_⟩
  rw [← place] at words
  exact words.congr fun x low _ => kept x low

end

section
variable {arch : Arch} {cpu middle final : Cpu arch} {code more : List Instruction}

/-- The code runs to its end, and these are the blocks it reads. -/
structure Ran (cpu : Cpu arch) (code : List Instruction) (final : Cpu arch) (reads : List (Nat × Nat)) :
    Prop where
  run : Runs.run exec cpu code = some final
  reads : readsOf cpu code = reads

theorem traceOf_append (observe : Cpu arch → Instruction → List α) (ran : run exec cpu code = some middle) :
    traceOf observe cpu (code ++ more) = traceOf observe cpu code ++ traceOf observe middle more := by
  induction code generalizing cpu with
  | nil =>
    cases ran
    rfl
  | cons instruction code ih =>
    obtain ⟨next, stepped, ran⟩ := Option.bind_eq_some_iff.mp ran
    rw [List.cons_append, traceOf, traceOf, stepped, Option.elim_some, Option.elim_some, ih ran,
      List.append_assoc]

theorem traceOf_eq_nil {observe : Cpu arch → Instruction → List α}
    (silent : ∀ instruction ∈ code, ∀ cpu : Cpu arch, observe cpu instruction = []) :
    traceOf observe cpu code = [] := by
  induction code generalizing cpu with
  | nil => rfl
  | cons instruction code ih =>
    obtain ⟨first, others⟩ := List.forall_mem_cons.mp silent
    rw [traceOf, first, List.nil_append]
    cases exec cpu instruction with
    | none => rfl
    | some next => exact ih others

theorem Ran.append (first : Ran cpu code middle blocks) (second : Ran middle more final others) :
    Ran cpu (code ++ more) final (blocks ++ others) where
  run := by rw [run_append, first.run, Option.bind_some, second.run]
  reads := by
    rw [← first.reads, ← second.reads]
    exact traceOf_append Instruction.reads first.run

/-- The places of consecutive words. -/
def places (arch : Arch) (p count : Nat) : List (Nat × Nat) :=
  (List.range count).map fun i => (p + arch.wordBytes * i, arch.wordBytes)

theorem places_succ (arch : Arch) (p count : Nat) :
    places arch p (count + 1) = (p, arch.wordBytes) :: places arch (p + arch.wordBytes) count := by
  rw [places, List.range_succ_eq_map, List.map_cons, List.map_map]
  refine congrArg₂ List.cons rfl (List.map_congr_left fun i _ => ?_)
  change (p + arch.wordBytes * (i + 1), _) = (p + arch.wordBytes + arch.wordBytes * i, _)
  rw [Nat.mul_succ, Nat.add_assoc, Nat.add_comm (arch.wordBytes * i)]

theorem places_snoc (arch : Arch) (p count : Nat) :
    places arch p (count + 1) = places arch p count ++ [(p + arch.wordBytes * count, arch.wordBytes)] := by
  rw [places, List.range_succ, List.map_append]
  rfl

section
variable {registers : List Register} (apart : .sp ∉ registers) (top : (cpu.registers .sp).toNat = p)
  (fits : p + arch.wordBytes * registers.length < arch.modulus)
include apart top fits

theorem readsOf_pops : readsOf cpu (registers.map Instruction.pop) = places arch p registers.length := by
  induction registers generalizing cpu p with
  | nil => rfl
  | cons register registers ih =>
    obtain ⟨first, others⟩ := List.ne_and_not_mem_of_not_mem_cons apart
    rw [List.length_cons, Nat.mul_succ] at fits
    have next : ((cpu.popInto register).registers .sp).toNat = p + arch.wordBytes := by
      rw [Cpu.popInto, set_other first, dropWord_sp top (by omega)]
    have rest := ih others next (by omega)
    rw [List.map_cons, List.length_cons, places_succ, ← rest, ← top]
    rfl

theorem ran_pops {last : Register}
    (sp : ((registers.foldl Cpu.popInto cpu).registers .sp).toNat = p + arch.wordBytes * registers.length) :
    Ran cpu (registers.map Instruction.pop ++ [.pop last]) ((registers.foldl Cpu.popInto cpu).popInto last)
      (places arch p (registers.length + 1)) := by
  rw [places_snoc, ← sp]
  exact Ran.append ⟨run_pops registers cpu, readsOf_pops apart top fits⟩ ⟨rfl, rfl⟩

end

theorem readsOf_restoreFloatingPoint (aligned : (cpu.registers .sp).toNat % 16 = 0) :
    readsOf cpu restoreFloatingPoint = [((cpu.registers .sp).toNat, 512)] := by
  have restores : exec cpu (.fxrstor .sp) = _ := if_pos aligned
  rw [restoreFloatingPoint, readsOf, traceOf, restores]
  rfl

theorem readsOf_tearDownFrame (frame : (cpu.registers .bp).toNat = p) (fits : p + arch.wordBytes < arch.modulus) :
    readsOf cpu tearDownFrame = places arch p 2 := by
  have sp : ((cpu.set .sp (cpu.registers .bp)).registers .sp).toNat = p := by rw [set_same, frame]
  have next : (((cpu.set .sp (cpu.registers .bp)).popInto .bp).registers .sp).toNat = p + arch.wordBytes := by
    rw [Cpu.popInto, set_other (by decide), dropWord_sp sp fits]
  have blocks : readsOf cpu tearDownFrame =
      [(((cpu.set .sp (cpu.registers .bp)).registers .sp).toNat, arch.wordBytes),
       ((((cpu.set .sp (cpu.registers .bp)).popInto .bp).registers .sp).toNat, arch.wordBytes)] := rfl
  rw [blocks, sp, next, places_succ, places_succ]
  rfl

theorem contains_places {window : Window} (low : window.start ≤ p)
    (high : p + arch.wordBytes * count ≤ window.finish) :
    ∀ block ∈ places arch p count, window.Contains block.1 block.2 := by
  intro block member
  obtain ⟨i, small, rfl⟩ := List.mem_map.mp member
  have whole : arch.wordBytes * (i + 1) ≤ arch.wordBytes * count :=
    Nat.mul_le_mul_left _ (List.mem_range.mp small)
  rw [Nat.mul_succ] at whole
  exact .inr ⟨Nat.le_trans low (Nat.le_add_right _ _), by dsimp only; omega⟩

end

section
variable {cpu caller : Cpu .x86_64} {entry : Entry .x86_64} {backing slot : Nat}
  {link : BitVec Arch.x86_64.bits}

section
variable (entry : Entry .x86_64) (backing : Nat) (cpu : Cpu .x86_64)

/-- The call of `thread_start`. -/
structure CallsStart : Prop where
  ip : cpu.ip = entry.threadStart
  param : cpu.registers .di = entry.param
  function : cpu.registers .si = entry.function
  returns : Machine.load cpu.memory (cpu.registers .sp).toNat 8 = entry.vanish.toNat
  frame : (cpu.registers .bp).toNat = freshLink .x86_64 backing

/-- The thread starts as its constructor has meant it to. -/
structure StartsThread (blocks : List (Nat × Nat)) : Prop extends CallsStart entry backing cpu where
  registers : ∀ register ∈ [.ax, .bx, .cx, .dx, .r8, .r9, .r10, .r11, .r12, .r13, .r14, .r15],
    cpu.registers register = initialRegisterValue .x86_64
  reads : ∀ block ∈ blocks, Window.Contains ⟨backing, backing + 4096⟩ block.1 block.2

/-- How the thread really starts. The stack pointer that is popped leads behind the registers that are
still to be popped, so that they are taken from the words above, and one of them from above the stack. -/
structure Arrives (blocks : List (Nat × Nat)) : Prop extends CallsStart entry backing cpu where
  registers : ∀ register ∈ [.r8, .r9, .r10, .r11, .r12, .r13, .r14, .r15],
    cpu.registers register = initialRegisterValue .x86_64
  bx : (cpu.registers .bx).toNat = freshLink .x86_64 backing
  dx : cpu.registers .dx = entry.threadStart
  cx : cpu.registers .cx = entry.vanish
  ax : (cpu.registers .ax).toNat = Machine.load cpu.memory (backing + 4096) 8
  reads : ∀ block ∈ blocks, Window.Contains ⟨backing, backing + 4096⟩ block.1 block.2 ∨
    block = (backing + 4096, 8)
  above : (backing + 4096, 8) ∈ blocks

end

/-- What is popped before the stack pointer, and what is popped after it. -/
def lowerContents (entry : Entry .x86_64) (link : BitVec Arch.x86_64.bits) : Register → BitVec Arch.x86_64.bits
  | .di => entry.param
  | .si => entry.function
  | .bp => link
  | _ => initialRegisterValue .x86_64

def upperContents (entry : Entry .x86_64) (link : BitVec Arch.x86_64.bits) : Register → BitVec Arch.x86_64.bits
  | .bx => link
  | .dx => entry.threadStart
  | _ => entry.vanish

theorem freshWords_reverse (same : link.toNat = freshLink .x86_64 backing) :
    (freshWords entry backing).reverse =
      (after .x86_64).reverse.map (fun register => (lowerContents entry link register).toNat) ++
        (link.toNat :: (List.replicate 4 (initialRegisterValue .x86_64).toNat ++
          [.bx, .dx, .cx].map (fun register => (upperContents entry link register).toNat))) := by
  rw [freshWords, ← same]
  rfl

theorem fresh_places (backing : Nat) : freshBase .x86_64 backing + 664 = backing + 4096 ∧
    freshLink .x86_64 backing + 24 = backing + 4096 := by
  unfold freshBase freshLink freshBytes
  change backing + 4096 - 152 - 512 + 664 = backing + 4096 ∧ backing + 4096 - 24 + 24 = backing + 4096
  omega

/-- The registers up to the stack pointer, which is replaced. -/
theorem pop_lower {base : Nat} (top : (cpu.registers .sp).toNat = base)
    (fits : base + 8 * 11 < Arch.x86_64.modulus)
    (words : WordsAt cpu.memory 8 base
      ((after .x86_64).reverse.map fun register => (lowerContents entry link register).toNat))
    (pointer : Machine.load cpu.memory (base + 8 * 11) 8 = link.toNat) :
    ∃ popped, Ran cpu ((after .x86_64).reverse.map Instruction.pop ++ [.pop .sp]) popped
        (places .x86_64 base 12) ∧ popped.registers .sp = link ∧ popped.memory = cpu.memory ∧
      ∀ register ∈ after .x86_64, popped.registers register = lowerContents entry link register := by
  have apart : .sp ∉ (after .x86_64).reverse := by decide
  obtain ⟨popped, values⟩ := pops_spec apart top fits words
  have ran := @ran_pops _ .x86_64 cpu _ apart top fits .sp popped.sp
  generalize (after .x86_64).reverse.foldl Cpu.popInto cpu = middle at popped values ran
  have loaded : middle.topWord = link := by
    apply topWord_eq popped.sp
    rw [popped.memory]
    exact pointer
  refine ⟨middle.popInto .sp, ran, ?_, popped.memory, ?_⟩
  · rw [Cpu.popInto, set_same, loaded]
  · intro register member
    have different : register ≠ .sp := member.ne_of_notMem (by decide)
    rw [Cpu.popInto, set_other different, dropWord_other different]
    exact values register (List.mem_reverse.mpr member)

/-- The other registers, the last of them from above the words. -/
theorem pop_upper (top : cpu.registers .sp = link)
    (fits : link.toNat + 8 * 3 < Arch.x86_64.modulus)
    (words : WordsAt cpu.memory 8 link.toNat
      ([.bx, .dx, .cx].map fun register => (upperContents entry link register).toNat)) :
    ∃ popped, Ran cpu ([.pop .bx, .pop .dx, .pop .cx] ++ [.pop .ax]) popped (places .x86_64 link.toNat 4) ∧
      popped.memory = cpu.memory ∧
      (∀ register ∈ [.bx, .dx, .cx], popped.registers register = upperContents entry link register) ∧
      (popped.registers .ax).toNat = Machine.load cpu.memory (link.toNat + 8 * 3) 8 ∧
      ∀ register ∈ after .x86_64, popped.registers register = cpu.registers register := by
  have apart : .sp ∉ [Register.bx, .dx, .cx] := by decide
  have pointer : (cpu.registers .sp).toNat = link.toNat := congrArg BitVec.toNat top
  obtain ⟨popped, values⟩ := pops_spec apart pointer fits words
  have ran := @ran_pops _ .x86_64 cpu _ apart pointer fits .ax popped.sp
  generalize [Register.bx, .dx, .cx].foldl Cpu.popInto cpu = middle at popped values ran
  have kept (register : Register) (other : register ≠ .ax) (different : register ≠ .sp) :
      (middle.popInto .ax).registers register = middle.registers register := by
    rw [Cpu.popInto, set_other other, dropWord_other different]
  refine ⟨middle.popInto .ax, ran, popped.memory, ?_, ?_, ?_⟩
  · intro register member
    rw [← values register member]
    exact kept register (member.ne_of_notMem (by decide)) (member.ne_of_notMem (by decide))
  · rw [Cpu.popInto, set_same, Cpu.topWord, toNat_ofNat_load, popped.sp, popped.memory]
    rfl
  · intro register member
    have fixed : register ≠ .ax ∧ register ≠ .sp ∧ register ∉ [Register.bx, .dx, .cx] := by
      revert member
      cases register <;> decide
    rw [kept register fixed.1 fixed.2.1, popped.others register fixed.2.1 fixed.2.2]

/-- The frame is torn down as if `thread_start` had been called by `vanish`. -/
theorem enter_fresh {place : Nat} (frame : cpu.registers .bp = link)
    (at_place : link.toNat = place) (high : 4072 ≤ place) (fits : place + 24 < Arch.x86_64.modulus)
    (words : WordsAt cpu.memory 8 place [place, entry.threadStart.toNat]) :
    ∃ started, Ran cpu tearDownFrame started (places .x86_64 place 2) ∧ started.ip = entry.threadStart ∧
      (started.registers .sp).toNat = place + 16 ∧ started.registers .bp = link ∧
      started.memory = cpu.memory ∧
      ∀ register, register ≠ .sp → register ≠ .bp → started.registers register = cpu.registers register := by
  have wide : Arch.x86_64.modulus = 2 ^ 64 := (two_pow_bits .x86_64).symm
  let called : Cpu .x86_64 :=
    { cpu with
      registers := update (update cpu.registers .bp link) .sp (BitVec.ofNat Arch.x86_64.bits (place + 16))
      ip := entry.threadStart }
  have callSp : called.callSp = place + 16 := by
    change (BitVec.ofNat Arch.x86_64.bits (place + 16)).toNat = place + 16
    rw [BitVec.toNat_ofNat, two_pow_bits, Nat.mod_eq_of_lt (by omega)]
  have bp : called.registers .bp = link := rfl
  have linked : called.link = place := by
    rw [Cpu.link, callSp]
    exact Nat.add_sub_cancel place 16
  have roomy : called.Fits := by
    refine ⟨?_, ?_⟩
    · rw [callSp]
      exact Nat.le_add_left 16 place
    · rw [Cpu.top, linked]
      change 128 + 512 ≤ _
      omega
  have frameNat : (cpu.registers .bp).toNat = place := (congrArg BitVec.toNat frame).trans at_place
  have stand : WordsAt cpu.memory 8 called.link [(called.registers .bp).toNat, called.ip.toNat] := by
    rw [linked, bp, at_place]
    exact words
  obtain ⟨started, ran, ip, sp, bpKept, others, -, memory⟩ :=
    tearDownFrame_spec roomy (frameNat.trans linked.symm) stand
  have next : place + 8 < Arch.x86_64.modulus := by omega
  refine ⟨started, ⟨ran, readsOf_tearDownFrame frameNat next⟩, ip, ?_, bpKept, memory, others⟩
  rw [sp]
  exact callSp

theorem fresh_reads (backing : Nat) : ∀ block ∈ [(freshBase .x86_64 backing, 512)] ++
      places .x86_64 (freshBase .x86_64 backing + 512) 12 ++ places .x86_64 (freshLink .x86_64 backing) 4 ++
      places .x86_64 (freshLink .x86_64 backing) 2,
    Window.Contains ⟨backing, backing + 4096⟩ block.1 block.2 ∨ block = (backing + 4096, 8) := by
  obtain ⟨basePlace, linkPlace⟩ := fresh_places backing
  have within (p count : Nat) (low : backing ≤ p) (high : p + 8 * count ≤ backing + 4096) :
      ∀ block ∈ places .x86_64 p count,
        Window.Contains ⟨backing, backing + 4096⟩ block.1 block.2 ∨ block = (backing + 4096, 8) :=
    fun block member => .inl (contains_places low high block member)
  have image : Window.Contains ⟨backing, backing + 4096⟩ (freshBase .x86_64 backing) 512 := by
    refine .inr ?_
    dsimp only
    omega
  rw [places_snoc .x86_64 (freshLink .x86_64 backing) 3]
  simp only [List.forall_mem_append, List.forall_mem_singleton]
  exact ⟨⟨⟨.inl image, within _ 12 (by omega) (by omega)⟩, within _ 3 (by omega) (by omega),
    .inr (Prod.ext linkPlace rfl)⟩, within _ 2 (by omega) (by omega)⟩

theorem resume_fresh (inside : backing + 4096 ≤ Arch.x86_64.modulus)
    (aligned : freshBase .x86_64 backing % 16 = 0)
    (top : (cpu.registers .sp).toNat = freshBase .x86_64 backing)
    (words : WordsAt cpu.memory 8 (freshBase .x86_64 backing + 512) (freshWords entry backing).reverse) :
    ∃ started reads, Ran cpu (resumeCode .x86_64) started reads ∧ Arrives entry backing started reads := by
  obtain ⟨basePlace, linkPlace⟩ := fresh_places backing
  have wide : Arch.x86_64.modulus = 2 ^ 64 := (two_pow_bits .x86_64).symm
  obtain ⟨link, linkNat⟩ : ∃ link : BitVec Arch.x86_64.bits, link.toNat = freshLink .x86_64 backing :=
    ⟨BitVec.ofNat Arch.x86_64.bits (freshLink .x86_64 backing), by
      rw [BitVec.toNat_ofNat, two_pow_bits]
      exact Nat.mod_eq_of_lt (by omega)⟩
  rw [freshWords_reverse linkNat] at words
  obtain ⟨lower, pointer, upper⟩ := wordsAt_append.mp words
  obtain ⟨-, upper⟩ := wordsAt_append.mp upper
  have arrival : (cpu.registers .sp).toNat % 16 = 0 := by rw [top]; exact aligned
  obtain ⟨restored, restores, sp, -, memory⟩ := restoreFloatingPoint_spec top aligned (by omega)
  have first : Ran cpu restoreFloatingPoint restored [(freshBase .x86_64 backing, 512)] :=
    ⟨restores, by rw [readsOf_restoreFloatingPoint arrival, top]⟩
  rw [← memory] at lower pointer upper
  obtain ⟨low, second, lowSp, lowMemory, lowValues⟩ := @pop_lower restored entry link _ sp (by omega) lower pointer
  have upperPlace : link.toNat = freshBase .x86_64 backing + 512 + 8 * 11 + 8 + 8 * 4 := by omega
  have eleven : (after .x86_64).length = 11 := rfl
  rw [List.length_map, List.length_reverse, eleven, List.length_replicate, ← upperPlace, ← lowMemory] at upper
  obtain ⟨high, third, highMemory, highValues, ax, kept⟩ := pop_upper lowSp (by omega) upper
  obtain ⟨linked, returns, vanishes, -⟩ := upper
  have frame : high.registers .bp = link := (kept .bp (by decide)).trans (lowValues .bp (by decide))
  obtain ⟨started, fourth, ip, finalSp, bp, finalMemory, others⟩ := @enter_fresh high entry link
    (freshLink .x86_64 backing) frame linkNat (by omega) (by omega) (by
      rw [highMemory, ← linkNat]
      exact ⟨linked, returns, trivial⟩)
  have register (name : Register) (listed : name ∈ after .x86_64) (other : name ≠ .bp) :
      started.registers name = lowerContents entry link name := by
    rw [others name (listed.ne_of_notMem (by decide)) other, kept name listed, lowValues name listed]
  have upperRegister (name : Register) (listed : name ∈ [Register.bx, .dx, .cx]) :
      started.registers name = upperContents entry link name := by
    rw [others name (listed.ne_of_notMem (by decide)) (listed.ne_of_notMem (by decide)), highValues name listed]
  refine ⟨started, _, ((first.append second).append third).append fourth, ?_⟩
  refine ⟨⟨ip, register .di (by decide) (by decide), register .si (by decide) (by decide), ?_, ?_⟩, ?_, ?_,
    upperRegister .dx (by decide), upperRegister .cx (by decide), ?_, ?_, ?_⟩
  · rw [finalSp, finalMemory, highMemory, ← linkNat]
    exact vanishes
  · rw [bp, linkNat]
  · intro name listed
    have saved : name ∈ after .x86_64 ∧ name ≠ .bp ∧
        lowerContents entry link name = initialRegisterValue .x86_64 := by
      revert listed
      cases name <;> simp [after, lowerContents]
    rw [register name saved.1 saved.2.1, saved.2.2]
  · rw [upperRegister .bx (by decide)]
    exact linkNat
  · rw [others .ax (by decide) (by decide), ax, finalMemory, highMemory, linkNat, linkPlace]
  · rw [linkNat]
    exact fresh_reads backing
  · rw [linkNat, places_snoc .x86_64 (freshLink .x86_64 backing) 3]
    refine List.mem_append_left _ (List.mem_append_right _ (List.mem_append_right _ ?_))
    exact List.mem_singleton.mpr (Prod.ext linkPlace.symm rfl)

/-- A thread calls `context_switch` to switch to a thread whose constructor has returned, and whose stack
nobody has touched since. -/
structure FirstSwitch (caller : Cpu .x86_64) (entry : Entry .x86_64) (backing slot : Nat)
    (stack : StaticStack) : Prop where
  inside : backing + 4096 ≤ Arch.x86_64.modulus
  created : ∃ memory fpu, thread memory backing fpu entry = some stack
  passes : Passes caller slot stack.stackPointer
  intact : ∀ x, backing ≤ x → x < backing + 4096 → caller.memory x = stack.memory x
  fits : caller.Fits
  stacksApart : caller.callSp ≤ backing ∨ backing + 4096 ≤ caller.base
  slotApart : slot + 8 ≤ backing ∨ backing + 4096 ≤ slot
  frameApart : slot + 8 ≤ caller.base ∨ caller.callSp ≤ slot

theorem FirstSwitch.arrives {stack : StaticStack} (switch : FirstSwitch caller entry backing slot stack) :
    ∃ started, run exec caller.call (contextSwitch .x86_64) = some started ∧
      Arrives entry backing started (readsOf caller.call (contextSwitch .x86_64)) := by
  obtain ⟨memory, fpu, created⟩ := switch.created
  obtain ⟨pointer, aligned, words⟩ := thread_spec switch.inside created
  have bounded : caller.callSp + argumentBytes .x86_64 ≤ Arch.x86_64.modulus := Nat.le_of_lt caller.callSp_lt
  obtain ⟨cpu, suspended, sp, -, -, outside⟩ := suspend_spec switch.fits switch.passes bounded switch.frameApart
  obtain ⟨basePlace, -⟩ := fresh_places backing
  have stacksApart := switch.stacksApart
  have slotApart : slot + Arch.x86_64.wordBytes ≤ backing ∨ backing + 4096 ≤ slot := switch.slotApart
  have stand : WordsAt cpu.memory 8 (freshBase .x86_64 backing + 512) (freshWords entry backing).reverse := by
    apply words.congr
    intro x low high
    have length : Arch.x86_64.wordBytes * (freshWords entry backing).reverse.length = 152 := by
      rw [List.length_reverse]
      exact length_freshWords entry backing
    rw [length] at high
    rw [outside x (by omega) (by omega), switch.intact x (by omega) (by omega)]
  obtain ⟨started, blocks, resumed, arrives⟩ :=
    resume_fresh switch.inside aligned (sp.trans pointer) stand
  have whole : Ran caller.call (contextSwitch .x86_64) started blocks :=
    Ran.append ⟨suspended, traceOf_eq_nil (by
      simp [suspendCode, setupFrame, saveRegisters, saveFloatingPoint, switchStacks, Instruction.reads])⟩ resumed
  refine ⟨started, whole.run, ?_⟩
  rw [whole.reads]
  exact arrives

/-- The word above the stack is read. -/
theorem Arrives.not_startsThread (arrives : Arrives entry backing cpu blocks) :
    ¬ StartsThread entry backing cpu blocks := by
  intro starts
  have outer := starts.reads _ arrives.above
  simp [Window.Contains] at outer

/-- No thread starts as its constructor has meant it to. -/
theorem first_switch (caller : Cpu .x86_64) (entry : Entry .x86_64) (backing slot : Nat) (stack : StaticStack)
    (switch : FirstSwitch caller entry backing slot stack) :
    ∃ started, run exec caller.call (contextSwitch .x86_64) = some started ∧
      Arrives entry backing started (readsOf caller.call (contextSwitch .x86_64)) ∧
      ¬ StartsThread entry backing started (readsOf caller.call (contextSwitch .x86_64)) := by
  obtain ⟨started, ran, arrives⟩ := switch.arrives
  exact ⟨started, ran, arrives, arrives.not_startsThread⟩

def sampleEntry : Entry .x86_64 where
  vanish := 0x100000
  threadStart := 0x100100
  function := 0x100200
  param := 7

/-- A thread that is about to switch to one whose stack is at `0x3008`. -/
def sampleStarter (memory : Memory) : Cpu .x86_64 where
  registers register := if register = .sp then 0x2000 else if register = .di then 0x100 else 0x3d70
  ip := 0x5000
  fpu _ := 1
  memory := memory

theorem sampleStarter_switches : ∃ stack, FirstSwitch (sampleStarter stack.memory) sampleEntry 0x3008 0x100 stack := by
  obtain ⟨stack, created⟩ := Option.isSome_iff_exists.mp
    ((thread_isSome_iff (fun _ => 0) 0x3008 (fun _ => 0) sampleEntry).mpr (by decide))
  have pointer : stack.stackPointer = 0x3d70 := (thread_spec (by decide) created).1
  have sp : (sampleStarter stack.memory).callSp = 0x2000 := rfl
  have top : (sampleStarter stack.memory).top = 0x1ff0 := by
    rw [Cpu.top, Cpu.link, sp]
    decide
  have saved : savedBytes .x86_64 = 128 := by decide
  have base : (sampleStarter stack.memory).base = 0x1d70 := by
    unfold Cpu.base
    rw [top, saved]
  refine ⟨stack, by decide, ⟨_, _, created⟩, ⟨rfl, ?_⟩, fun _ _ _ => rfl, ⟨?_, ?_⟩, .inl ?_, by decide, .inl ?_⟩
  · rw [pointer]
    rfl
  · rw [sp]
    decide
  · rw [top]
    decide
  · rw [sp]
    decide
  · rw [base]
    decide

theorem first_switch_sample : ∃ (stack : StaticStack) (started : Cpu .x86_64),
    run exec (sampleStarter stack.memory).call (contextSwitch .x86_64) = some started ∧
      started.ip = sampleEntry.threadStart ∧ started.registers .di = sampleEntry.param := by
  obtain ⟨stack, switch⟩ := sampleStarter_switches
  obtain ⟨started, ran, arrives, -⟩ := first_switch _ _ _ _ _ switch
  exact ⟨stack, started, ran, arrives.ip, arrives.param⟩

/-- The register that should have `InitialRegisterValue` has the address of `thread_start`. -/
theorem registers_shifted : ∃ (stack : StaticStack) (started : Cpu .x86_64),
    FirstSwitch (sampleStarter stack.memory) sampleEntry 0x3008 0x100 stack ∧
      run exec (sampleStarter stack.memory).call (contextSwitch .x86_64) = some started ∧
      started.registers .dx = 0x100100 ∧
      ¬ StartsThread sampleEntry 0x3008 started
        (readsOf (sampleStarter stack.memory).call (contextSwitch .x86_64)) := by
  obtain ⟨stack, switch⟩ := sampleStarter_switches
  obtain ⟨started, ran, arrives⟩ := switch.arrives
  exact ⟨stack, started, switch, ran, arrives.dx, arrives.not_startsThread⟩

end

end FlapjackOS.Context
