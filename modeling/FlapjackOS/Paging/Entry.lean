import FlapjackOS.Frames.Controller

/-! The words of the paging structures: page table entries, and the entries of the
levels above, which refer to the next paging structure. -/

namespace FlapjackOS.Paging

open Bits Frames

/-- The contents of one entry of a paging structure. -/
abbrev Word (arch : Arch) := BitVec arch.bits

/-- The entries of all paging structures, by the structure's address and the index in it. -/
abbrev Words (arch : Arch) := Nat → Nat → Word arch

/-- `ProtectionFlags`, a set of flags. -/
abbrev ProtectionFlags := BitVec 32

namespace ProtectionFlags

def writable (flags : ProtectionFlags) : Bool := testFlag flags 1

def global (flags : ProtectionFlags) : Bool := testFlag flags 2

def supervisor (flags : ProtectionFlags) : Bool := testFlag flags 3

end ProtectionFlags

variable {arch : Arch} {data : Word arch} {address : Nat} {on : Bool}

/-- The bits of an entry, which are the same for all kinds of entries. -/
def presentBit : Nat := 0

def readwriteBit : Nat := 1

def supervisorBit : Nat := 2

/-- Only page table entries have this one. -/
def globalBit : Nat := 8

section
variable (data : Word arch)

def isPresent : Bool := testFlag data presentBit

def setPresent (present : Bool) : Word arch := setFlag data presentBit present

def isReadwrite : Bool := testFlag data readwriteBit

def setReadwrite (readwrite : Bool) : Word arch :=
  setFlag data readwriteBit readwrite

def isSupervisor : Bool := testFlag data supervisorBit

def setSupervisor (supervisor : Bool) : Word arch :=
  setFlag data supervisorBit supervisor

def isGlobal : Bool := testFlag data globalBit

def setGlobal (global : Bool) : Word arch := setFlag data globalBit global

end

namespace I386

/-- `ADDRESS_ZERO_MASK`: the bits of an entry that do not hold the address. -/
def addressZeroMask : BitVec 32 := 0xFFF

def PageDirectoryEntry.setAddress (data : BitVec 32) (address : Nat) : BitVec 32 :=
  let field := ((BitVec.ofNat 32 address >>> 12) &&& 0xFFFFF) <<< 12
  (data &&& addressZeroMask) ||| field

def PageDirectoryEntry.getAddress (data : BitVec 32) : Nat := (data &&& ~~~ addressZeroMask).toNat

def PageTableEntry.setAddress (data : BitVec 32) (address : Nat) : BitVec 32 :=
  let data := data &&& addressZeroMask
  let field := BitVec.ofNat 32 address &&& ~~~ addressZeroMask
  data ||| field

/-- `get_address`, which is also the address that the processor reads. -/
def PageTableEntry.getAddress (data : BitVec 32) : Nat := (data &&& ~~~ addressZeroMask).toNat

end I386

namespace X86_64

/-- `ADDRESS_ZERO_MASK`: the bits of an entry that do not hold the address. -/
def addressZeroMask : BitVec 64 := 0xFFF0000000000FFF

/-- The format of the entries of all levels above the page table. -/
def GenericPageDirectoryEntry.setAddress (data : BitVec 64) (address : Nat) : BitVec 64 :=
  let field := ((BitVec.ofNat 64 address >>> 12) &&& 0xFFFFFFFFFF) <<< 12
  (data &&& addressZeroMask) ||| field

def GenericPageDirectoryEntry.getAddress (data : BitVec 64) : Nat :=
  (data &&& ~~~ addressZeroMask).toNat

def PageTableEntry.setAddress (data : BitVec 64) (address : Nat) : Option (BitVec 64) :=
  if address % pageSize = 0 then
    let data := data &&& addressZeroMask
    let field := BitVec.ofNat 64 address &&& ~~~ addressZeroMask
    some (data ||| field)
  else none

/-- The address that the processor reads. -/
def PageTableEntry.frameAddress (data : BitVec 64) : Nat := (data &&& ~~~ addressZeroMask).toNat

end X86_64

/-- `set_address` of an entry above the page table. -/
def setTableAddress : {arch : Arch} → Word arch → Nat → Word arch
  | .i386, data, address => I386.PageDirectoryEntry.setAddress data address
  | .x86_64, data, address => X86_64.GenericPageDirectoryEntry.setAddress data address

def getTableAddress : {arch : Arch} → Word arch → Nat
  | .i386, data => I386.PageDirectoryEntry.getAddress data
  | .x86_64, data => X86_64.GenericPageDirectoryEntry.getAddress data

/-- `set_address` of a page table entry. -/
def setFrameAddress : {arch : Arch} → Word arch → Nat → Option (Word arch)
  | .i386, data, address => some (I386.PageTableEntry.setAddress data address)
  | .x86_64, data, address => X86_64.PageTableEntry.setAddress data address

/-- The frame that a page table entry refers to. -/
def frameAddress : {arch : Arch} → Word arch → Nat
  | .i386, data => I386.PageTableEntry.getAddress data
  | .x86_64, data => X86_64.PageTableEntry.frameAddress data

section
variable {bit other : Nat}

theorem flag_inside (arch : Arch) (low : bit < 12) : bit < arch.bits := by
  cases arch <;> exact low.trans (by decide)

theorem testFlag_setFlag_low (low : bit < 12) :
    testFlag (setFlag data other on) bit = if bit = other then on else testFlag data bit :=
  testFlag_setFlag (flag_inside arch low)

@[simp]
theorem isPresent_setPresent : isPresent (setPresent data on) = on :=
  testFlag_setFlag_low (by decide)

@[simp]
theorem isPresent_setReadwrite : isPresent (setReadwrite data on) = isPresent data :=
  testFlag_setFlag_low (by decide)

@[simp]
theorem isPresent_setSupervisor : isPresent (setSupervisor data on) = isPresent data :=
  testFlag_setFlag_low (by decide)

@[simp]
theorem isPresent_setGlobal : isPresent (setGlobal data on) = isPresent data :=
  testFlag_setFlag_low (by decide)

@[simp]
theorem isReadwrite_setPresent : isReadwrite (setPresent data on) = isReadwrite data :=
  testFlag_setFlag_low (by decide)

@[simp]
theorem isReadwrite_setReadwrite : isReadwrite (setReadwrite data on) = on :=
  testFlag_setFlag_low (by decide)

@[simp]
theorem isReadwrite_setSupervisor : isReadwrite (setSupervisor data on) = isReadwrite data :=
  testFlag_setFlag_low (by decide)

@[simp]
theorem isReadwrite_setGlobal : isReadwrite (setGlobal data on) = isReadwrite data :=
  testFlag_setFlag_low (by decide)

@[simp]
theorem isGlobal_setGlobal : isGlobal (setGlobal data on) = on :=
  testFlag_setFlag_low (by decide)

@[simp]
theorem isPresent_zero : isPresent (0 : Word arch) = false := by
  cases arch <;> rfl

end

/-- The bits of an entry that do not hold the address, on either platform. -/
def addressZeroMask : (arch : Arch) → Word arch
  | .i386 => I386.addressZeroMask
  | .x86_64 => X86_64.addressZeroMask

/-- The physical addresses of the machine, of which there are at most `2 ^ 52`. -/
def Representable (arch : Arch) (address : Nat) : Prop :=
  address < arch.modulus ∧ address < 2 ^ 52

section
variable {bit : Nat}

theorem mask_low (low : bit < 12) : ~~~ addressZeroMask arch &&& mask arch.bits bit = 0 := by
  have bits : ∀ k, k < 12 → ~~~ addressZeroMask arch &&& mask arch.bits k = 0 := by cases arch <;> decide
  exact bits bit low

theorem and_mask (aligned : address % pageSize = 0) (bounded : Representable arch address) :
    (BitVec.ofNat arch.bits address &&& ~~~ addressZeroMask arch).toNat = address := by
  have positions : ∀ k, k < arch.bits → (addressZeroMask arch).getLsbD k = true → k < 12 ∨ 52 ≤ k := by
    cases arch <;> decide
  rw [and_of_clear]
  · cases arch <;> exact Nat.mod_eq_of_lt bounded.1
  · intro i inside kept
    have bit : address.testBit i = false := by
      rcases positions i inside kept with low | high
      · have shown := Nat.testBit_mod_two_pow address 12 i
        rw [show address % 2 ^ 12 = 0 from aligned] at shown
        simpa [low] using shown.symm
      · exact Nat.testBit_lt_two_pow (bounded.2.trans_le (Nat.pow_le_pow_right (by decide) high))
    rw [BitVec.getLsbD_ofNat, bit, Bool.and_false]

end

section
variable {bit : Nat}

theorem setTableAddress_eq : setTableAddress data address =
    put (~~~ addressZeroMask arch) (BitVec.ofNat arch.bits address) data := by
  rw [put, BitVec.not_not]
  cases arch with
  | i386 =>
    have shape : ∀ i, i < 32 → (!I386.addressZeroMask.getLsbD i) =
        (decide (12 ≤ i) && (0xFFFFF : BitVec 32).getLsbD (i - 12)) := by decide
    exact congrArg (data &&& addressZeroMask .i386 ||| ·) (shift_field shape)
  | x86_64 =>
    have shape : ∀ i, i < 64 → (!X86_64.addressZeroMask.getLsbD i) =
        (decide (12 ≤ i) && (0xFFFFFFFFFF : BitVec 64).getLsbD (i - 12)) := by decide
    exact congrArg (data &&& addressZeroMask .x86_64 ||| ·) (shift_field shape)

theorem getTableAddress_eq : getTableAddress data = (data &&& ~~~ addressZeroMask arch).toNat := by
  cases arch <;> rfl

/-- The two kinds of entries hold their addresses alike. -/
theorem frameAddress_eq : frameAddress data = getTableAddress data := by
  cases arch <;> rfl

theorem setFrameAddress_eq : setFrameAddress data address =
    if arch = .i386 ∨ address % pageSize = 0 then some (setTableAddress data address) else none := by
  rw [setTableAddress_eq, put, BitVec.not_not]
  cases arch with
  | i386 => rfl
  | x86_64 =>
    simp only [reduceCtorEq, false_or]
    rfl

theorem testFlag_setTableAddress (low : bit < 12) :
    testFlag (setTableAddress data address) bit = testFlag data bit := by
  rw [testFlag, setTableAddress_eq, put_and_of_apart (mask_low low), testFlag]

@[simp]
theorem isReadwrite_setTableAddress :
    isReadwrite (setTableAddress data address) = isReadwrite data :=
  testFlag_setTableAddress (by decide)

theorem getTableAddress_setFlag (low : bit < 12) :
    getTableAddress (setFlag data bit on) = getTableAddress data := by
  rw [getTableAddress_eq, getTableAddress_eq, setFlag_eq_put, put_and_of_apart]
  rw [BitVec.and_comm, mask_low low]

theorem getTableAddress_setTableAddress (aligned : address % pageSize = 0)
    (bounded : Representable arch address) : getTableAddress (setTableAddress data address) = address := by
  rw [getTableAddress_eq, setTableAddress_eq, put_and BitVec.and_self, and_mask aligned bounded]

/-- The tables lie in the last gigabyte, so that both formats can hold their addresses. -/
theorem representable_of_lt (bounded : address < 2 ^ 30) : Representable arch address :=
  ⟨bounded.trans_le ((by decide : 2 ^ 30 ≤ 4294967296).trans arch.modulus_large), bounded.trans (by decide)⟩

theorem representable_frameAddress (data : Word arch) : Representable arch (frameAddress data) := by
  have masked : Representable arch (~~~ addressZeroMask arch).toNat := by
    cases arch <;> exact ⟨by decide, by decide⟩
  rw [frameAddress_eq, getTableAddress_eq, BitVec.toNat_and]
  exact ⟨Nat.and_le_right.trans_lt masked.1, Nat.and_le_right.trans_lt masked.2⟩

theorem frameAddress_setFlag (low : bit < 12) :
    frameAddress (setFlag data bit on) = frameAddress data := by
  rw [frameAddress_eq, frameAddress_eq, getTableAddress_setFlag low]

/-- Setting an aligned address succeeds and keeps the flags. -/
theorem setFrameAddress_aligned (data : Word arch) (aligned : address % pageSize = 0) :
    ∃ changed, setFrameAddress data address = some changed ∧
      (∀ bit, bit < 12 → testFlag changed bit = testFlag data bit) ∧
      (Representable arch address → frameAddress changed = address) := by
  rw [setFrameAddress_eq, if_pos (.inr aligned)]
  refine ⟨_, rfl, fun bit low => testFlag_setTableAddress low, fun bounded => ?_⟩
  rw [frameAddress_eq, getTableAddress_setTableAddress aligned bounded]

end

end FlapjackOS.Paging
