import FlapjackOS.Context.Cpu

/-! What the context switch leaves on the stack of the thread it suspends, and what it makes of it
when the thread is resumed. -/

namespace FlapjackOS.Context

open Function Machine Runs

variable {arch : Arch} {cpu caller : Cpu arch} {register : Register}

section
variable {word : BitVec arch.bits} {n : Nat}

theorem two_pow_bits (arch : Arch) : 2 ^ arch.bits = arch.modulus := by
  cases arch <;> decide

theorem toNat_lt_modulus (word : BitVec arch.bits) : word.toNat < arch.modulus := by
  rw [← two_pow_bits]
  exact word.isLt

theorem toNat_sub_ofNat (enough : n ≤ word.toNat) :
    (word - BitVec.ofNat arch.bits n).toNat = word.toNat - n := by
  have small : (BitVec.ofNat arch.bits n).toNat = n := by
    rw [BitVec.toNat_ofNat, Nat.mod_eq_of_lt (Nat.lt_of_le_of_lt enough word.isLt)]
  rw [BitVec.toNat_sub_of_le (by rw [BitVec.le_def, small]; exact enough), small]

theorem toNat_add_ofNat (fits : word.toNat + n < arch.modulus) :
    (word + BitVec.ofNat arch.bits n).toNat = word.toNat + n := by
  rw [← two_pow_bits] at fits
  have small : n % 2 ^ arch.bits = n := Nat.mod_eq_of_lt (by omega)
  rw [BitVec.toNat_add, BitVec.toNat_ofNat, small, Nat.mod_eq_of_lt fits]

theorem toNat_and_neg (word : BitVec arch.bits) :
    (word &&& BitVec.ofInt arch.bits (-16)).toNat = word.toNat / 16 * 16 := by
  have shape : word &&& BitVec.ofInt arch.bits (-16) = (word >>> 4) <<< 4 := by
    have mask : BitVec.ofInt arch.bits (-16) = BitVec.allOnes arch.bits <<< 4 := by
      cases arch <;> decide
    rw [mask]
    apply BitVec.eq_of_getLsbD_eq
    intro i inside
    by_cases low : i < 4
    · simp [low]
    · simp [low, inside, show 4 + (i - 4) = i by omega]
  have bound : word.toNat / 16 * 16 < 2 ^ arch.bits :=
    Nat.lt_of_le_of_lt (Nat.div_mul_le_self _ _) word.isLt
  rw [shape, BitVec.toNat_shiftLeft, BitVec.toNat_ushiftRight, Nat.shiftLeft_eq, Nat.shiftRight_eq_div_pow]
  exact Nat.mod_eq_of_lt bound

end

@[simp] theorem set_same (value : BitVec arch.bits) : (cpu.set register value).registers register = value := by
  simp [Cpu.set]

theorem set_other {other : Register} (different : other ≠ register) (value : BitVec arch.bits) :
    (cpu.set register value).registers other = cpu.registers other := by
  simp [Cpu.set, different]

@[simp] theorem set_memory (value : BitVec arch.bits) : (cpu.set register value).memory = cpu.memory := rfl

section
variable {p : Nat} {values : List (BitVec arch.bits)}

def pushWords (cpu : Cpu arch) (values : List (BitVec arch.bits)) : Cpu arch :=
  values.foldl Cpu.pushWord cpu

theorem pushWords_append (more : List (BitVec arch.bits)) :
    pushWords cpu (values ++ more) = pushWords (pushWords cpu values) more := List.foldl_append

/-- Pushing words changes the stack and its pointer only. -/
structure Pushed (cpu after : Cpu arch) (p : Nat) (values : List (BitVec arch.bits)) : Prop where
  sp : (after.registers .sp).toNat = p - arch.wordBytes * values.length
  registers : ∀ register, register ≠ .sp → after.registers register = cpu.registers register
  fpu : after.fpu = cpu.fpu
  ip : after.ip = cpu.ip
  memory : after.memory = pushAll cpu.memory arch.wordBytes p (values.map BitVec.toNat)

section
variable (room : arch.wordBytes * values.length ≤ p)
include room

theorem pushWords_spec (top : (cpu.registers .sp).toNat = p) : Pushed cpu (pushWords cpu values) p values := by
  induction values generalizing cpu p with
  | nil => exact ⟨by simpa [pushWords] using top, fun _ _ => rfl, rfl, rfl, rfl⟩
  | cons value values ih =>
    rw [List.length_cons, Nat.mul_succ] at room
    have next : (cpu.registers .sp - BitVec.ofNat arch.bits arch.wordBytes).toNat = p - arch.wordBytes := by
      rw [toNat_sub_ofNat (by omega), top]
    obtain ⟨sp, registers, fpu, ip, memory⟩ := @ih (cpu.pushWord value) (p - arch.wordBytes) (by omega)
      (by simp only [Cpu.pushWord, set_same, next])
    refine ⟨?_, ?_, fpu, ip, ?_⟩
    · rw [List.length_cons, Nat.mul_succ, Nat.add_comm, ← Nat.sub_sub]
      exact sp
    · intro register different
      exact (registers register different).trans (set_other different _)
    · have first : (cpu.pushWord value).memory =
          store cpu.memory (p - arch.wordBytes) arch.wordBytes value.toNat := by
        rw [Cpu.pushWord, next]
      rw [first] at memory
      exact memory

theorem Pushed.outside {after : Cpu arch} (pushed : Pushed cpu after p values) (x : Nat)
    (outside : x < p - arch.wordBytes * values.length ∨ p ≤ x) : after.memory x = cpu.memory x := by
  rw [pushed.memory, pushAll_outside (by simpa using room) (by simpa using outside)]

theorem Pushed.words {after : Cpu arch} (pushed : Pushed cpu after p values) :
    WordsAt after.memory arch.wordBytes (p - arch.wordBytes * values.length)
      (values.map BitVec.toNat).reverse := by
  have words := @WordsAt.pushAll cpu.memory arch.wordBytes p [] (values.map BitVec.toNat) trivial
    (by simpa using room) (List.forall_mem_map.mpr fun value _ => toNat_lt_modulus value)
  rw [List.append_nil, List.length_map, ← pushed.memory] at words
  exact words

end

theorem run_pushes {registers : List Register} (apart : .sp ∉ registers) (cpu : Cpu arch) :
    run exec cpu (registers.map Instruction.push) =
      some (pushWords cpu (registers.map cpu.registers)) := by
  induction registers generalizing cpu with
  | nil => rfl
  | cons register registers ih =>
    obtain ⟨first, others⟩ := List.ne_and_not_mem_of_not_mem_cons apart
    have same : registers.map (cpu.pushWord (cpu.registers register)).registers =
        registers.map cpu.registers := by
      apply List.map_congr_left
      intro other member
      exact set_other (member.ne_of_notMem others) _
    rw [List.map_cons, run, exec, Option.bind_some, ih others, same]
    rfl

end

section
variable {p : Nat} {registers : List Register} {contents : Register → BitVec arch.bits}

/-- Popping words changes the registers that are popped and the stack pointer only. -/
structure Popped (cpu after : Cpu arch) (registers : List Register) (p : Nat) : Prop where
  sp : (after.registers .sp).toNat = p
  others : ∀ register, register ≠ .sp → register ∉ registers →
    after.registers register = cpu.registers register
  fpu : after.fpu = cpu.fpu
  ip : after.ip = cpu.ip
  memory : after.memory = cpu.memory

theorem dropWord_sp (top : (cpu.registers .sp).toNat = p) (fits : p + arch.wordBytes < arch.modulus) :
    (cpu.dropWord.registers .sp).toNat = p + arch.wordBytes := by
  rw [Cpu.dropWord, set_same, toNat_add_ofNat (by omega), top]

theorem dropWord_other (different : register ≠ .sp) :
    cpu.dropWord.registers register = cpu.registers register :=
  set_other different _

theorem topWord_eq {value : BitVec arch.bits} (top : (cpu.registers .sp).toNat = p)
    (stored : Machine.load cpu.memory p arch.wordBytes = value.toNat) : cpu.topWord = value := by
  rw [Cpu.topWord, top, stored, BitVec.ofNat_toNat, BitVec.setWidth_eq]

theorem popInto_spec (apart : register ≠ .sp) (top : (cpu.registers .sp).toNat = p)
    (fits : p + arch.wordBytes < arch.modulus) {value : BitVec arch.bits}
    (stored : Machine.load cpu.memory p arch.wordBytes = value.toNat) :
    Popped cpu (cpu.popInto register) [register] (p + arch.wordBytes) ∧
      (cpu.popInto register).registers register = value := by
  rw [Cpu.popInto, topWord_eq top stored]
  refine ⟨⟨?_, ?_, rfl, rfl, rfl⟩, set_same value⟩
  · rw [set_other (Ne.symm apart), dropWord_sp top fits]
  · intro other different absent
    rw [set_other (fun equal => absent (List.mem_singleton.mpr equal)), dropWord_other different]

theorem pops_spec (apart : .sp ∉ registers) (top : (cpu.registers .sp).toNat = p)
    (fits : p + arch.wordBytes * registers.length < arch.modulus)
    (words : WordsAt cpu.memory arch.wordBytes p (registers.map (fun register => (contents register).toNat))) :
    Popped cpu (registers.foldl Cpu.popInto cpu) registers (p + arch.wordBytes * registers.length) ∧
      ∀ register ∈ registers, (registers.foldl Cpu.popInto cpu).registers register = contents register := by
  induction registers generalizing cpu p with
  | nil => exact ⟨⟨by simpa using top, fun _ _ _ => rfl, rfl, rfl, rfl⟩, by simp⟩
  | cons register registers ih =>
    obtain ⟨first, rest⟩ := List.ne_and_not_mem_of_not_mem_cons apart
    obtain ⟨here, above⟩ := words
    rw [List.length_cons, Nat.mul_succ] at fits
    obtain ⟨popped, value⟩ := popInto_spec (Ne.symm first) top (by omega) here
    obtain ⟨later, values⟩ := @ih (cpu.popInto register) (p + arch.wordBytes) rest popped.sp (by omega)
      (by rw [popped.memory]; exact above)
    refine ⟨⟨?_, ?_, ?_, ?_, ?_⟩, ?_⟩
    · rw [List.length_cons, Nat.mul_succ, List.foldl_cons, later.sp]
      omega
    · intro other different absent
      obtain ⟨distinct, elsewhere⟩ := List.ne_and_not_mem_of_not_mem_cons absent
      rw [List.foldl_cons, later.others other different elsewhere]
      exact popped.others other different (fun member => distinct (List.mem_singleton.mp member))
    · exact later.fpu.trans popped.fpu
    · exact later.ip.trans popped.ip
    · exact later.memory.trans popped.memory
    · intro other member
      by_cases repeated : other ∈ registers
      · exact values other repeated
      · obtain rfl : other = register := by simpa [repeated] using member
        rw [List.foldl_cons, later.others other (Ne.symm first) repeated]
        exact value

theorem run_pops (registers : List Register) (cpu : Cpu arch) :
    run exec cpu (registers.map Instruction.pop) = some (registers.foldl Cpu.popInto cpu) := by
  induction registers generalizing cpu with
  | nil => rfl
  | cons register registers ih =>
    rw [List.map_cons, run, exec, Option.bind_some, ih]
    rfl

end

section

/-- The registers that are pushed before the stack pointer, and those that are pushed after it. -/
def before : List Register := [.ax, .cx, .dx, .bx]

def after : Arch → List Register
  | .i386 => [.bp, .si, .di]
  | .x86_64 => [.bp, .si, .di, .r8, .r9, .r10, .r11, .r12, .r13, .r14, .r15]

/-- The bytes that the pushed registers take. -/
def savedBytes (arch : Arch) : Nat := arch.wordBytes * ((after arch).length + 1 + before.length)

variable (caller)

namespace Cpu

/-- The stack pointer at the call, and where the link to the caller is: its frame pointer and the
return address. -/
def callSp : Nat := (caller.registers .sp).toNat

def link : Nat := caller.callSp - 2 * arch.wordBytes

/-- Where the registers are pushed from. -/
def top : Nat := caller.link / 16 * 16

/-- Where the floating point state is, which is the stack pointer of the suspended thread. -/
def base : Nat := caller.top - savedBytes arch - 512

/-- There is room for the frame. -/
def Fits : Prop := 2 * arch.wordBytes ≤ caller.callSp ∧ savedBytes arch + 512 ≤ caller.top

/-- The registers when they are pushed. -/
def pushing : Register → BitVec arch.bits :=
  update caller.registers .bp (BitVec.ofNat _ caller.link)

end Cpu

/-- The stack pointer as it is pushed among the registers. -/
def pushedSp : Nat :=
  if arch = .i386 then caller.top else caller.top - arch.wordBytes * before.length

/-- The pushed words, from the last one on. -/
def frameWords : List Nat :=
  (after arch).reverse.map (fun register => (caller.pushing register).toNat) ++
    pushedSp caller :: before.reverse.map (fun register => (caller.pushing register).toNat)

/-- The frame of a thread that called `context_switch` with these registers. -/
structure HoldsFrame (memory : Memory) : Prop where
  fpu : ∀ k : Fin 512, memory (caller.base + k) = caller.fpu k
  words : WordsAt memory arch.wordBytes (caller.base + 512) (frameWords caller)
  link : WordsAt memory arch.wordBytes caller.link
    [(caller.registers .bp).toNat, caller.ip.toNat]

variable {caller}

theorem length_frameWords : arch.wordBytes * (frameWords caller).length = savedBytes arch := by
  simp only [frameWords, savedBytes, List.length_append, List.length_map, List.length_reverse,
    List.length_cons]
  congr 1

theorem Cpu.callSp_lt (caller : Cpu arch) : caller.callSp < arch.modulus :=
  toNat_lt_modulus (caller.registers .sp)

theorem Cpu.pushing_bp (caller : Cpu arch) : (caller.pushing .bp).toNat = caller.link := by
  have bound : caller.link < 2 ^ arch.bits :=
    Nat.lt_of_le_of_lt (Nat.sub_le _ _) (caller.registers .sp).isLt
  rw [pushing, update_self, BitVec.toNat_ofNat, Nat.mod_eq_of_lt bound]

theorem Cpu.base_aligned : caller.base % 16 = 0 := by
  have saved : savedBytes arch % 16 = 0 := by cases arch <;> decide
  have divides (quotient size : Nat) (whole : size % 16 = 0) : (quotient * 16 - size - 512) % 16 = 0 := by
    omega
  exact divides _ _ saved

/-- The parts of the frame, from the lowest to the highest. -/
theorem Cpu.Fits.places (fits : caller.Fits) :
    caller.base + 512 + savedBytes arch = caller.top ∧ caller.top ≤ caller.link ∧
      caller.link + 2 * arch.wordBytes = caller.callSp := by
  obtain ⟨linkRoom, room⟩ := fits
  have regained (whole size : Nat) (enough : size + 512 ≤ whole) : whole - size - 512 + 512 + size = whole := by
    omega
  exact ⟨regained _ _ room, Nat.div_mul_le_self _ _, Nat.sub_add_cancel linkRoom⟩

/-- The frame is all that matters for the thread. -/
theorem HoldsFrame.congr {memory other : Memory} (holds : HoldsFrame caller memory) (fits : caller.Fits)
    (same : ∀ x, caller.base ≤ x → x < caller.callSp → other x = memory x) : HoldsFrame caller other := by
  obtain ⟨start, top, link⟩ := fits.places
  have words := @length_frameWords _ caller
  refine ⟨?_, ?_, ?_⟩
  · intro k
    rw [← holds.fpu k]
    exact same _ (by omega) (by omega)
  · apply holds.words.congr
    intro x low high
    rw [words] at high
    exact same x (by omega) (by omega)
  · apply holds.link.congr
    intro x low high
    simp only [List.length_cons, List.length_nil] at high
    exact same x (by omega) (by omega)

end

/-- The processor while the frame is built: the registers are those of the caller, except for the
frame pointer and the stack pointer. -/
structure Building (caller cpu : Cpu arch) (p : Nat) : Prop where
  sp : (cpu.registers .sp).toNat = p
  registers : ∀ register, register ≠ .sp → cpu.registers register = caller.pushing register
  fpu : cpu.fpu = caller.fpu
  link : WordsAt cpu.memory arch.wordBytes caller.link [(caller.registers .bp).toNat, caller.ip.toNat]
  outside : ∀ x, x < p ∨ caller.callSp ≤ x → cpu.memory x = caller.memory x

theorem setupFrame_spec (fits : caller.Fits) :
    ∃ cpu, run exec caller.call setupFrame = some cpu ∧ Building caller cpu caller.top := by
  obtain ⟨linkRoom, -⟩ := fits
  have room : arch.wordBytes * [caller.ip, caller.registers .bp].length ≤ caller.callSp := by
    simp only [List.length_cons, List.length_nil]
    omega
  have pushed := pushWords_spec room rfl
  have link : caller.callSp - arch.wordBytes * 2 = caller.link := by
    rw [Cpu.link, Nat.mul_comm]
  generalize linked : pushWords caller [caller.ip, caller.registers .bp] = cpu at pushed
  have sp : (cpu.registers .sp).toNat = caller.link := pushed.sp.trans link
  have frame : cpu.registers .sp = BitVec.ofNat _ caller.link := by
    rw [← sp, BitVec.ofNat_toNat, BitVec.setWidth_eq]
  refine ⟨(cpu.set .bp (cpu.registers .sp)).set .sp (cpu.registers .sp &&& BitVec.ofInt _ (-16)),
    ?_, ?_, ?_, pushed.fpu, ?_, ?_⟩
  · rw [← linked]
    rfl
  · rw [set_same, toNat_and_neg, sp, Cpu.top]
  · intro register different
    rw [set_other different, Cpu.pushing]
    by_cases pointer : register = .bp
    · subst pointer
      rw [set_same, update_self, frame]
    · rw [set_other pointer, update_of_ne pointer, pushed.registers register different]
  · rw [← link]
    exact pushed.words room
  · intro x outside
    have below : caller.top ≤ caller.link := Nat.div_mul_le_self _ _
    refine pushed.outside room x ?_
    rw [List.length_cons, List.length_cons, List.length_nil, link]
    omega

/-- On both platforms the same words are pushed, except for the stack pointer. -/
theorem saveRegisters_eq (top : (cpu.registers .sp).toNat = caller.top) (fits : caller.Fits) :
    ∃ sp : BitVec arch.bits, sp.toNat = pushedSp caller ∧
      run exec cpu (saveRegisters arch) =
        some (pushWords cpu (before.map cpu.registers ++ sp :: (after arch).map cpu.registers)) := by
  cases arch with
  | i386 => exact ⟨cpu.registers .sp, top, rfl⟩
  | x86_64 =>
    have room : Arch.x86_64.wordBytes * (before.map cpu.registers).length ≤ caller.top := by
      rw [List.length_map]
      exact Nat.le_trans (by decide) fits.2
    have pushed := pushWords_spec room top
    generalize half : pushWords cpu (before.map cpu.registers) = middle at pushed
    have same : (after .x86_64).map (middle.pushWord (middle.registers .sp)).registers =
        (after .x86_64).map cpu.registers := by
      apply List.map_congr_left
      intro register member
      have different : register ≠ .sp := member.ne_of_notMem (by decide)
      exact (set_other different _).trans (pushed.registers register different)
    refine ⟨middle.registers .sp, pushed.sp, ?_⟩
    have code : saveRegisters .x86_64 = before.map Instruction.push ++
        ([.push .sp] ++ (after .x86_64).map Instruction.push) := rfl
    rw [code, run_append, run_pushes (by decide), half, Option.bind_some, run_append, run, exec,
      Option.bind_some, run, Option.bind_some, run_pushes (by decide), same, pushWords_append, half,
      pushWords, pushWords, List.foldl_cons]

theorem saveFloatingPoint_spec {base : Nat} (top : (cpu.registers .sp).toNat = base + 512)
    (aligned : base % 16 = 0) :
    ∃ saved, run exec cpu saveFloatingPoint = some saved ∧ (saved.registers .sp).toNat = base ∧
      (∀ register, register ≠ .sp → saved.registers register = cpu.registers register) ∧
      saved.fpu = cpu.fpu ∧ (∀ k : Fin 512, saved.memory (base + k) = cpu.fpu k) ∧
      ∀ x, x < base ∨ base + 512 ≤ x → saved.memory x = cpu.memory x := by
  have lowered : (cpu.registers .sp - BitVec.ofNat _ 512).toNat = base := by
    rw [toNat_sub_ofNat (by omega), top, Nat.add_sub_cancel]
  generalize moved : cpu.set .sp (cpu.registers .sp - BitVec.ofNat _ 512) = next
  have sp : (next.registers .sp).toNat = base := by
    rw [← moved, set_same, lowered]
  have fpu : next.fpu = cpu.fpu := by rw [← moved]; rfl
  have memory : next.memory = cpu.memory := by rw [← moved]; rfl
  have others : ∀ register, register ≠ .sp → next.registers register = cpu.registers register := by
    intro register different
    rw [← moved, set_other different]
  refine ⟨{ next with
    memory := fun x =>
      if inside : (next.registers .sp).toNat ≤ x ∧ x < (next.registers .sp).toNat + 512 then
        next.fpu ⟨x - (next.registers .sp).toNat, by omega⟩
      else next.memory x }, ?_, sp, others, fpu, ?_, ?_⟩
  · have saves : exec next (.fxsave .sp) = _ := if_pos (by rw [sp]; exact aligned)
    rw [saveFloatingPoint, run, exec, Option.bind_some, moved, run, saves]
    rfl
  · intro k
    have inside : (next.registers .sp).toNat ≤ base + k ∧
        base + k < (next.registers .sp).toNat + 512 := by omega
    simp only [dif_pos inside, fpu]
    congr 1
    exact Fin.ext (by simp only [sp]; omega)
  · intro x outside
    have apart : ¬ ((next.registers .sp).toNat ≤ x ∧ x < (next.registers .sp).toNat + 512) := by omega
    simp only [dif_neg apart, memory]

theorem save_spec (fits : caller.Fits) :
    ∃ cpu, run exec caller.call (setupFrame ++ saveRegisters arch ++ saveFloatingPoint) = some cpu ∧
      Building caller cpu caller.base ∧ HoldsFrame caller cpu.memory := by
  obtain ⟨framed, ran, building⟩ := setupFrame_spec fits
  obtain ⟨pushed, pushedSp, saves⟩ := saveRegisters_eq building.sp fits
  obtain ⟨bottom, top, link⟩ := fits.places
  have contents : ∀ registers : List Register, .sp ∉ registers →
      registers.map framed.registers = registers.map caller.pushing := by
    intro registers apart
    apply List.map_congr_left
    intro register member
    exact building.registers register (member.ne_of_notMem apart)
  rw [contents before (by decide), contents (after arch) (by cases arch <;> decide)] at saves
  have length : (before.map caller.pushing ++ pushed :: (after arch).map caller.pushing).length =
      (frameWords caller).length := by
    simp only [frameWords, List.length_append, List.length_cons, List.length_map, List.length_reverse]
    omega
  have size := @length_frameWords arch caller
  rw [← length] at size
  have room : arch.wordBytes * (before.map caller.pushing ++ pushed :: (after arch).map caller.pushing).length ≤
      caller.top := by omega
  have changes := pushWords_spec room building.sp
  generalize pushWords framed (before.map caller.pushing ++ pushed :: (after arch).map caller.pushing) = saved
    at saves changes
  have stand := changes.words room
  have memory := changes.outside room
  obtain ⟨savedSp, registers, fpu, -, -⟩ := changes
  rw [size] at savedSp memory stand
  have place : caller.top - savedBytes arch = caller.base + 512 := by omega
  rw [place] at savedSp memory stand
  obtain ⟨cpu, savesFpu, sp, others, image, contents, rest⟩ :=
    saveFloatingPoint_spec savedSp caller.base_aligned
  have outside : ∀ x, x < caller.base ∨ caller.top ≤ x → cpu.memory x = framed.memory x := by
    intro x far
    rw [rest x (by omega), memory x (by omega)]
  have linked : WordsAt cpu.memory arch.wordBytes caller.link
      [(caller.registers .bp).toNat, caller.ip.toNat] :=
    building.link.congr (fun x low _ => outside x (by omega))
  refine ⟨cpu, ?_, ⟨sp, ?_, ?_, linked, ?_⟩, ?_, ?_, linked⟩
  · rw [run_append, run_append, ran, Option.bind_some, saves, Option.bind_some, savesFpu]
  · intro register different
    rw [others register different, registers register different, building.registers register different]
  · rw [image, fpu, building.fpu]
  · intro x far
    rw [outside x (by omega), building.outside x (by omega)]
  · intro k
    rw [contents k, fpu, building.fpu]
  · have order : ((before.map caller.pushing ++ pushed :: (after arch).map caller.pushing).map
        BitVec.toNat).reverse = frameWords caller := by
      simp [frameWords, pushedSp, List.map_reverse, Function.comp_def]
    rw [order] at stand
    exact stand.congr (fun x low _ => rest x (by omega))

/-- The arguments of the call: the address where the stack pointer of the old thread is kept, and
the stack pointer of the new one. On the i386 they are on the stack. -/
def Passes : {arch : Arch} → Cpu arch → Nat → Nat → Prop
  | .i386, caller, slot, pointer =>
    Machine.load caller.memory caller.callSp 4 = slot ∧
      Machine.load caller.memory (caller.callSp + 4) 4 = pointer
  | .x86_64, caller, slot, pointer =>
    (caller.registers .di).toNat = slot ∧ (caller.registers .si).toNat = pointer

def argumentBytes : Arch → Nat
  | .i386 => 8
  | .x86_64 => 0

theorem toNat_ofNat_load (memory : Memory) (address : Nat) :
    (BitVec.ofNat arch.bits (Machine.load memory address arch.wordBytes)).toNat =
      Machine.load memory address arch.wordBytes := by
  have small : Machine.load memory address arch.wordBytes < 2 ^ arch.bits := by
    rw [two_pow_bits]
    exact load_lt
  rw [BitVec.toNat_ofNat, Nat.mod_eq_of_lt small]

theorem exec_load {address destination : Register} {displacement place value : Nat}
    (points : (cpu.registers address + BitVec.ofNat _ displacement).toNat = place)
    (stored : Machine.load cpu.memory place arch.wordBytes = value) :
    ∃ word : BitVec arch.bits, word.toNat = value ∧
      exec cpu (.load displacement address destination) = some (cpu.set destination word) := by
  subst points stored
  exact ⟨_, toNat_ofNat_load _ _, rfl⟩

theorem exec_store {source address : Register} {value place : Nat}
    (holds : (cpu.registers source).toNat = value) (points : (cpu.registers address).toNat = place) :
    exec cpu (.store source address) =
      some { cpu with memory := store cpu.memory place arch.wordBytes value } := by
  subst holds points
  rfl

theorem switchStacks_spec {slot pointer : Nat} (fits : caller.Fits)
    (building : Building caller cpu caller.base) (passes : Passes caller slot pointer)
    (inside : caller.callSp + argumentBytes arch ≤ arch.modulus)
    (apart : slot + arch.wordBytes ≤ caller.callSp ∨ caller.callSp + argumentBytes arch ≤ slot) :
    ∃ next, run exec cpu (switchStacks arch) = some next ∧ (next.registers .sp).toNat = pointer ∧
      next.memory = store cpu.memory slot arch.wordBytes caller.base := by
  cases arch with
  | i386 =>
    obtain ⟨first, second⟩ := passes
    obtain ⟨-, -, link⟩ := fits.places
    simp only [argumentBytes, Arch.wordBytes] at link inside apart
    have bp : (cpu.registers .bp).toNat = caller.link := by
      rw [building.registers .bp (by decide), caller.pushing_bp]
    have firstPlace : (cpu.registers .bp + BitVec.ofNat _ 8).toNat = caller.callSp := by
      rw [toNat_add_ofNat (by omega), bp]
      omega
    have secondPlace : (cpu.registers .bp + BitVec.ofNat _ 12).toNat = caller.callSp + 4 := by
      rw [toNat_add_ofNat (by omega), bp]
      omega
    have firstArgument : Machine.load cpu.memory caller.callSp 4 = slot := by
      rw [← first]
      exact load_congr (fun x low _ => building.outside x (.inr low))
    have secondArgument : Machine.load (store cpu.memory slot 4 caller.base) (caller.callSp + 4) 4 = pointer := by
      rw [load_store_disjoint (by omega), ← second]
      exact load_congr (fun x low _ => building.outside x (.inr (by omega)))
    obtain ⟨word, value, loads⟩ := @exec_load .i386 cpu .bp .ax _ _ _ firstPlace firstArgument
    have stores := @exec_store .i386 (cpu.set .ax word) .sp .ax caller.base slot
      (by rw [set_other (by decide)]; exact building.sp) (by rw [set_same]; exact value)
    generalize keptCpu : { cpu.set .ax word with
      memory := store (cpu.set .ax word).memory slot Arch.i386.wordBytes caller.base } = kept at stores
    have memory : kept.memory = store cpu.memory slot 4 caller.base := by
      rw [← keptCpu]
      rfl
    have keptBp : kept.registers .bp = cpu.registers .bp := by
      have other : Register.bp ≠ .ax := by decide
      rw [← keptCpu]
      exact set_other other word
    obtain ⟨taken, takenValue, reloads⟩ := @exec_load .i386 kept .bp .ax 12 (caller.callSp + 4) pointer
      (by rw [keptBp]; exact secondPlace) (by rw [memory]; exact secondArgument)
    refine ⟨(kept.set .ax taken).set .sp taken, ?_, ?_, memory⟩
    · rw [switchStacks, run, loads, Option.bind_some, run, stores, Option.bind_some, run, reloads,
        Option.bind_some, run, exec, set_same]
      rfl
    · rw [set_same, takenValue]
  | x86_64 =>
    obtain ⟨first, second⟩ := passes
    have di : (cpu.registers .di).toNat = slot := by
      rw [building.registers .di (by decide)]
      exact first
    have si : (cpu.registers .si).toNat = pointer := by
      rw [building.registers .si (by decide)]
      exact second
    refine ⟨_, rfl, ?_, ?_⟩
    · rw [set_same]
      exact si
    · rw [set_memory]
      simp only [di, building.sp]

/-- The call of `context_switch`, up to the point where it has taken the other stack. -/
theorem suspend_spec {slot pointer : Nat} (fits : caller.Fits) (passes : Passes caller slot pointer)
    (inside : caller.callSp + argumentBytes arch ≤ arch.modulus)
    (apart : slot + arch.wordBytes ≤ caller.base ∨ caller.callSp + argumentBytes arch ≤ slot) :
    ∃ cpu, run exec caller.call (suspendCode arch) = some cpu ∧ (cpu.registers .sp).toNat = pointer ∧
      HoldsFrame caller cpu.memory ∧ Machine.load cpu.memory slot arch.wordBytes = caller.base ∧
      ∀ x, x < caller.base ∨ caller.callSp ≤ x → x < slot ∨ slot + arch.wordBytes ≤ x →
        cpu.memory x = caller.memory x := by
  obtain ⟨bottom, top, link⟩ := fits.places
  have small := caller.callSp_lt
  obtain ⟨saved, saves, building, holds⟩ := save_spec fits
  obtain ⟨cpu, switches, sp, memory⟩ := switchStacks_spec fits building passes inside (by omega)
  refine ⟨cpu, ?_, sp, ?_, ?_, ?_⟩
  · rw [suspendCode, run_append, saves, Option.bind_some, switches]
  · apply holds.congr fits
    intro x low high
    rw [memory, store_outside (by omega)]
  · have bound : caller.base < 256 ^ arch.wordBytes := Nat.lt_of_le_of_lt (by omega) small
    rw [memory, load_store_same, Nat.mod_eq_of_lt bound]
  · intro x frame elsewhere
    rw [memory, store_outside elsewhere, building.outside x frame]

theorem restoreFloatingPoint_spec {base : Nat} (top : (cpu.registers .sp).toNat = base)
    (aligned : base % 16 = 0) (fits : base + 512 < arch.modulus) :
    ∃ restored, run exec cpu restoreFloatingPoint = some restored ∧
      (restored.registers .sp).toNat = base + 512 ∧
      (∀ k : Fin 512, restored.fpu k = cpu.memory (base + k)) ∧ restored.memory = cpu.memory := by
  subst top
  have restores : exec cpu (.fxrstor .sp) = _ := if_pos aligned
  refine ⟨{ cpu with fpu := fun k => cpu.memory ((cpu.registers .sp).toNat + k) }.set .sp
    (cpu.registers .sp + BitVec.ofNat _ 512), ?_, ?_, ?_, ?_⟩
  · rw [restoreFloatingPoint, run, restores]
    rfl
  · rw [set_same, toNat_add_ofNat fits]
  · intro k
    rfl
  · rfl

/-- The registers are popped in the order in which they are on the stack. The stack pointer among
them is passed over on one platform, and on the other it must be what it is anyway. -/
theorem restoreRegisters_eq
    (same : arch = .x86_64 → ((after arch).reverse.foldl Cpu.popInto cpu).topWord =
      ((after arch).reverse.foldl Cpu.popInto cpu).dropWord.registers .sp) :
    run exec cpu (restoreRegisters arch) =
      some (before.reverse.foldl Cpu.popInto ((after arch).reverse.foldl Cpu.popInto cpu).dropWord) := by
  cases arch with
  | i386 => rfl
  | x86_64 =>
    have code : restoreRegisters .x86_64 =
        ((after .x86_64).reverse ++ .sp :: before.reverse).map Instruction.pop := rfl
    rw [code, run_pops, List.foldl_append, List.foldl_cons, Cpu.popInto, same rfl, Cpu.set, update_eq_self]

theorem restoreRegisters_spec (fits : caller.Fits) (top : (cpu.registers .sp).toNat = caller.base + 512)
    (words : WordsAt cpu.memory arch.wordBytes (caller.base + 512) (frameWords caller)) :
    ∃ restored, run exec cpu (restoreRegisters arch) = some restored ∧
      (∀ register, register ∈ before ∨ register ∈ after arch →
        restored.registers register = caller.pushing register) ∧
      restored.fpu = cpu.fpu ∧ restored.memory = cpu.memory := by
  obtain ⟨bottom, topLe, link⟩ := fits.places
  have small := caller.callSp_lt
  have apart : .sp ∉ (after arch).reverse := by cases arch <;> decide
  have size : savedBytes arch = arch.wordBytes * (after arch).reverse.length + arch.wordBytes +
      arch.wordBytes * before.reverse.length := by
    rw [savedBytes, List.length_reverse, List.length_reverse, Nat.mul_add, Nat.mul_add, Nat.mul_one]
  obtain ⟨lower, stackPointer, upper⟩ := wordsAt_append.mp words
  rw [List.length_map] at stackPointer upper
  obtain ⟨popped, values⟩ := pops_spec apart top (by omega) lower
  have code := @restoreRegisters_eq arch cpu
  generalize (after arch).reverse.foldl Cpu.popInto cpu = middle at popped values code
  have sp := dropWord_sp popped.sp (by omega)
  have same : arch = .x86_64 → middle.topWord = middle.dropWord.registers .sp := by
    intro platform
    apply BitVec.eq_of_toNat_eq
    have wide : arch ≠ .i386 := by
      rw [platform]
      decide
    rw [sp, Cpu.topWord, toNat_ofNat_load, popped.sp, popped.memory, stackPointer, pushedSp, if_neg wide,
      ← @List.length_reverse _ before]
    omega
  obtain ⟨final, restored⟩ := @pops_spec arch middle.dropWord _ before.reverse caller.pushing
    (by decide) sp (by omega) (by rw [Cpu.dropWord, set_memory, popped.memory]; exact upper)
  refine ⟨_, code same, ?_, ?_, ?_⟩
  · intro register member
    by_cases early : register ∈ before
    · exact restored register (List.mem_reverse.mpr early)
    · have late : register ∈ (after arch).reverse := List.mem_reverse.mpr (member.resolve_left early)
      have different := late.ne_of_notMem apart
      rw [final.others register different (fun found => early (List.mem_reverse.mp found)),
        dropWord_other different, values register late]
  · rw [final.fpu]
    exact popped.fpu
  · rw [final.memory]
    exact popped.memory

theorem tearDownFrame_spec (fits : caller.Fits) (frame : (cpu.registers .bp).toNat = caller.link)
    (words : WordsAt cpu.memory arch.wordBytes caller.link
      [(caller.registers .bp).toNat, caller.ip.toNat]) :
    ∃ left, run exec cpu tearDownFrame = some left ∧ left.ip = caller.ip ∧
      left.registers .sp = caller.registers .sp ∧ left.registers .bp = caller.registers .bp ∧
      (∀ register, register ≠ .sp → register ≠ .bp → left.registers register = cpu.registers register) ∧
      left.fpu = cpu.fpu ∧ left.memory = cpu.memory := by
  obtain ⟨-, -, link⟩ := fits.places
  have small := caller.callSp_lt
  have positive := arch.wordBytes_pos
  obtain ⟨first, second, -⟩ := words
  generalize moved : cpu.set .sp (cpu.registers .bp) = lowered
  have sp : (lowered.registers .sp).toNat = caller.link := by
    rw [← moved, set_same, frame]
  have memory : lowered.memory = cpu.memory := by rw [← moved]; rfl
  obtain ⟨popped, bp⟩ := @popInto_spec arch lowered .bp _ (by decide) sp (by omega) (caller.registers .bp)
    (by rw [memory]; exact first)
  generalize ending : lowered.popInto .bp = linked at popped bp
  have returned : linked.topWord = caller.ip := topWord_eq popped.sp (by rw [popped.memory, memory]; exact second)
  have final := dropWord_sp popped.sp (by omega)
  refine ⟨{ linked.dropWord with ip := linked.topWord }, ?_, returned, ?_, ?_, ?_, ?_, ?_⟩
  · rw [tearDownFrame, run, exec, Option.bind_some, moved, run, exec, Option.bind_some, ending]
    rfl
  · apply BitVec.eq_of_toNat_eq
    refine final.trans ?_
    rw [← Cpu.callSp]
    omega
  · have other : Register.bp ≠ .sp := by decide
    exact (dropWord_other other).trans bp
  · intro register stack pointer
    refine (dropWord_other stack).trans ?_
    rw [popped.others register stack (fun found => pointer (List.mem_singleton.mp found)), ← moved]
    exact set_other stack _
  · refine popped.fpu.trans ?_
    rw [← moved]
    rfl
  · exact popped.memory.trans memory

/-- The registers that `context_switch` has to preserve. -/
def preserved : Arch → List Register
  | .i386 => [.bx, .bp, .sp, .si, .di]
  | .x86_64 => [.bx, .bp, .sp, .r12, .r13, .r14, .r15]

/-- The thread goes on behind its call, as if nothing had happened. -/
structure Returned (caller cpu : Cpu arch) : Prop where
  ip : cpu.ip = caller.ip
  registers : ∀ register ∈ preserved arch, cpu.registers register = caller.registers register
  fpu : cpu.fpu = caller.fpu

theorem resume_spec (fits : caller.Fits) (holds : HoldsFrame caller cpu.memory)
    (top : (cpu.registers .sp).toNat = caller.base) :
    ∃ resumed, run exec cpu (resumeCode arch) = some resumed ∧ Returned caller resumed := by
  obtain ⟨bottom, topLe, link⟩ := fits.places
  have small := caller.callSp_lt
  have positive := arch.wordBytes_pos
  obtain ⟨fpu, ran, sp, image, memory⟩ := restoreFloatingPoint_spec top caller.base_aligned (by omega)
  obtain ⟨restored, pops, registers, fpuKept, memoryKept⟩ :=
    restoreRegisters_spec fits sp (by rw [memory]; exact holds.words)
  have frame : (restored.registers .bp).toNat = caller.link := by
    have member : .bp ∈ after arch := by cases arch <;> decide
    rw [registers .bp (.inr member), caller.pushing_bp]
  obtain ⟨left, leaves, ip, finalSp, finalBp, others, finalFpu, -⟩ :=
    tearDownFrame_spec fits frame (by rw [memoryKept, memory]; exact holds.link)
  refine ⟨left, ?_, ip, ?_, ?_⟩
  · rw [resumeCode, run_append, run_append, ran, Option.bind_some, pops, Option.bind_some, leaves]
  · intro register member
    by_cases stack : register = .sp
    · rw [stack, finalSp]
    · by_cases pointer : register = .bp
      · rw [pointer, finalBp]
      · have pushed : register ∈ before ∨ register ∈ after arch := by
          revert stack pointer member
          cases arch <;> cases register <;> decide
        rw [others register stack pointer, registers register pushed, Cpu.pushing, update_of_ne pointer]
  · funext k
    rw [finalFpu, fpuKept, image k, holds.fpu k]

end FlapjackOS.Context
