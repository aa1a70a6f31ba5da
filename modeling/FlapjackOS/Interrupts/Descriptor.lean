import FlapjackOS.Machine.Arch
import FlapjackOS.Machine.Bits
import FlapjackOS.Machine.Runs
import Mathlib.Tactic.IntervalCases

/-! `InterruptDescriptor`: its fields are set through masks, whatever the descriptor holds. -/

namespace FlapjackOS.Interrupts

open Bits Runs

/-- The i386 descriptor has the first word only. -/
structure InterruptDescriptor where
  data : BitVec 64
  data2 : BitVec 64

/-- The x86_64 descriptor has no task gates. -/
inductive GateType : Arch → Type where
  | taskGate : GateType .i386
  | interruptGate : GateType arch
  | trapGate : GateType arch

namespace InterruptDescriptor

def segmentSelectorMask : BitVec 64 := 0xFFFF0000

def dplMask : BitVec 64 := 0x600000000000

def presentBit : Nat := 47

def offsetLowerMask : BitVec 64 := 0xFFFF

def offsetUpperMask : BitVec 64 := 0xFFFF0000

/-- `OFFSET_63_32_MASK`. -/
def offsetHighMask : BitVec 64 := 0xFFFFFFFF

def setSegmentSelector (data : BitVec 64) (segmentSelector : BitVec 32) : Option (BitVec 64) :=
  if segmentSelector.toNat < 2 ^ 16 then
    some (put segmentSelectorMask ((segmentSelector <<< 16).setWidth 64) data)
  else none

def getSegmentSelector (data : BitVec 64) : BitVec 32 := ((data &&& segmentSelectorMask) >>> 16).setWidth 32

variable {arch : Arch}

/-- The bits that `set_type` clears and sets, in order. -/
def typeBits : {arch : Arch} → GateType arch → List (Nat × Bool)
  | .i386, .taskGate => [(44, false), (43, false), (42, true), (41, false), (40, true)]
  | .i386, .interruptGate =>
    [(44, false), (43, true), (42, true), (41, true), (40, false), (39, false), (38, false), (37, false)]
  | .i386, .trapGate =>
    [(44, false), (43, true), (42, true), (41, true), (40, true), (39, false), (38, false), (37, false)]
  | .x86_64, .interruptGate => [(43, true), (42, true), (41, true), (40, false)]
  | .x86_64, .trapGate => [(43, true), (42, true), (41, true), (40, true)]

section
variable (data : BitVec 64)

def setType (type : GateType arch) : BitVec 64 :=
  (typeBits type).foldl (fun data flag => setFlag data flag.1 flag.2) data

def getType : (arch : Arch) → GateType arch
  | .i386 =>
    if testFlag data 41 = false then .taskGate else if testFlag data 40 then .trapGate else .interruptGate
  | .x86_64 => if testFlag data 40 then .trapGate else .interruptGate

def setDpl (dpl : BitVec 32) : Option (BitVec 64) :=
  if dpl.toNat ≤ 3 then some (put dplMask (dpl.setWidth 64 <<< 45) data) else none

def getDpl : BitVec 32 := ((data &&& dplMask) >>> 45).setWidth 32

def setPresent (present : Bool) : BitVec 64 := setFlag data presentBit present

def getPresent : Bool := testFlag data presentBit

end

/-- The changes of the first word, on both platforms. -/
def setOffsetLow (data offset : BitVec 64) : BitVec 64 :=
  let data := put offsetLowerMask offset data
  (data &&& ~~~ (offsetUpperMask <<< 32)) ||| ((offset &&& offsetUpperMask) <<< 32)

def setOffset (descriptor : InterruptDescriptor) (offset : BitVec arch.bits) : InterruptDescriptor where
  data := setOffsetLow descriptor.data (offset.setWidth 64)
  data2 := match arch with
    | .i386 => descriptor.data2
    | .x86_64 => (descriptor.data2 &&& ~~~ offsetHighMask) ||| (offset.setWidth 64 >>> 32)

def getOffset (arch : Arch) (descriptor : InterruptDescriptor) : BitVec arch.bits :=
  let high := match arch with
    | .i386 => 0
    | .x86_64 => (descriptor.data2 &&& offsetHighMask) <<< 32
  (high ||| ((descriptor.data &&& (offsetUpperMask <<< 32)) >>> 32) |||
    (descriptor.data &&& offsetLowerMask)).setWidth arch.bits

/-- A call of a setter. Selectors have sixteen bits and privilege levels two. -/
inductive Call (arch : Arch) where
  | setSegmentSelector (segmentSelector : BitVec 16)
  | setType (type : GateType arch)
  | setDpl (dpl : BitVec 2)
  | setPresent (present : Bool)
  | setOffset (offset : BitVec arch.bits)

def step (descriptor : InterruptDescriptor) : Call arch → Option InterruptDescriptor
  | .setSegmentSelector selector =>
    (setSegmentSelector descriptor.data (selector.setWidth 32)).map ({ descriptor with data := · })
  | .setType type => some { descriptor with data := setType descriptor.data type }
  | .setDpl dpl => (setDpl descriptor.data (dpl.setWidth 32)).map ({ descriptor with data := · })
  | .setPresent present => some { descriptor with data := setPresent descriptor.data present }
  | .setOffset offset => some (descriptor.setOffset offset)

/-- What the getters return, and the bits 43 to 40. -/
structure Fields (arch : Arch) where
  segmentSelector : BitVec 32
  type : GateType arch
  code : List Bool
  dpl : BitVec 32
  present : Bool
  offset : BitVec arch.bits

def fields (arch : Arch) (descriptor : InterruptDescriptor) : Fields arch where
  segmentSelector := getSegmentSelector descriptor.data
  type := getType descriptor.data arch
  code := [43, 42, 41, 40].map (testFlag descriptor.data)
  dpl := getDpl descriptor.data
  present := getPresent descriptor.data
  offset := descriptor.getOffset arch

def code : {arch : Arch} → GateType arch → List Bool
  | _, .taskGate => [false, true, false, true]
  | _, .interruptGate => [true, true, true, false]
  | _, .trapGate => [true, true, true, true]

/-- Each setter determines its own field. -/
def Call.assign (fields : Fields arch) : Call arch → Fields arch
  | .setSegmentSelector selector => { fields with segmentSelector := selector.setWidth 32 }
  | .setType type => { fields with type, code := code type }
  | .setDpl dpl => { fields with dpl := dpl.setWidth 32 }
  | .setPresent present => { fields with present }
  | .setOffset offset => { fields with offset }

theorem setSegmentSelector_eq (data : BitVec 64) (selector : BitVec 16) :
    setSegmentSelector data (selector.setWidth 32) =
      some (put segmentSelectorMask ((selector.setWidth 32 <<< 16).setWidth 64) data) :=
  if_pos (by rw [BitVec.toNat_setWidth]; omega)

theorem setDpl_eq (data : BitVec 64) (dpl : BitVec 2) :
    setDpl data (dpl.setWidth 32) = some (put dplMask ((dpl.setWidth 32).setWidth 64 <<< 45) data) :=
  if_pos (by rw [BitVec.toNat_setWidth]; omega)

theorem setOffsetLow_eq (data offset : BitVec 64) : setOffsetLow data offset =
    put (offsetUpperMask <<< 32) (offset <<< 32) (put offsetLowerMask offset data) := by
  simp only [setOffsetLow, put, BitVec.shiftLeft_and_distrib]

theorem offset_back_i386 (offset : BitVec 32) :
    (0 ||| ((offset.setWidth 64 <<< 32 &&& offsetUpperMask <<< 32) >>> 32) |||
      (offset.setWidth 64 &&& offsetLowerMask)).setWidth 32 = offset := by
  ext i inside
  interval_cases i <;> simp [offsetUpperMask, offsetLowerMask]

theorem offset_back_x86_64 (offset data2 : BitVec 64) :
    ((((data2 &&& ~~~ offsetHighMask) ||| (offset.setWidth 64 >>> 32)) &&& offsetHighMask) <<< 32 |||
      ((offset.setWidth 64 <<< 32 &&& offsetUpperMask <<< 32) >>> 32) |||
        (offset.setWidth 64 &&& offsetLowerMask)).setWidth 64 = offset := by
  ext i inside
  interval_cases i <;> simp [offsetHighMask, offsetUpperMask, offsetLowerMask]

theorem fields_step (descriptor : InterruptDescriptor) (call : Call arch) :
    ∃ after, step descriptor call = some after ∧ fields arch after = call.assign (fields arch descriptor) := by
  simp only [fields, getSegmentSelector, getDpl, getPresent, testFlag, List.map_cons, List.map_nil]
  cases call
  case setType type =>
    cases type
    all_goals try cases arch
    all_goals
      simp (disch := decide) only [step, setType, typeBits, List.foldl_cons, List.foldl_nil, setFlag_eq_put,
        Option.some.injEq, exists_eq_left', getType, getOffset, testFlag, Call.assign, code, put_and,
        put_and_of_apart]
      rfl
  all_goals
    simp (disch := decide) only [step, setSegmentSelector_eq, setDpl_eq, setPresent, setOffset, setOffsetLow_eq,
      Option.map_some, setFlag_eq_put, Option.some.injEq, exists_eq_left', getType, getOffset, testFlag, Call.assign,
      put_and, put_and_of_apart]
  case setSegmentSelector selector =>
    refine congrArg (Fields.mk · _ _ _ _ _) ?_
    ext i inside
    interval_cases i <;> simp [segmentSelectorMask]
  case setDpl dpl => exact congrArg (Fields.mk _ _ _ · _ _) (by revert dpl; decide)
  case setPresent present => cases present <;> rfl
  case setOffset offset =>
    cases arch
    · exact congrArg (Fields.mk _ _ _ _ _) (offset_back_i386 offset)
    · exact congrArg (Fields.mk _ _ _ _ _) (offset_back_x86_64 offset descriptor.data2)

theorem setType_put {mask value data : BitVec 64} {type : GateType arch}
    (apart : ∀ flag ∈ typeBits type, mask &&& Bits.mask 64 flag.1 = 0) :
    setType (put mask value data) type = put mask value (setType data type) := by
  unfold setType
  generalize typeBits type = bits at apart ⊢
  induction bits generalizing data with
  | nil => rfl
  | cons flag rest ih =>
    obtain ⟨here, later⟩ := List.forall_mem_cons.mp apart
    rw [List.foldl_cons, List.foldl_cons, setFlag_eq_put, put_comm here, ← setFlag_eq_put, ih later]

theorem step_comm (descriptor : InterruptDescriptor) {first second : Call arch}
    (different : first.ctorIdx ≠ second.ctorIdx) :
    run step descriptor [first, second] = run step descriptor [second, first] := by
  cases first <;> cases second <;> first
    | exact absurd rfl different
    | simp only [run, step, setSegmentSelector_eq, setDpl_eq, setPresent, setOffset, setOffsetLow_eq,
        setFlag_eq_put, Option.map_some, Option.bind_some]
  all_goals try (rename GateType _ => type; cases type <;> try cases arch)
  all_goals simp (disch := decide) only [setType_put, put_comm]

/-- Whatever a descriptor holds, calls of its setters leave in each field what the last call for that
field put there, and calls for different fields commute. -/
theorem fields_independent (descriptor : InterruptDescriptor) (calls : List (Call arch)) :
    (∃ after, run step descriptor calls = some after ∧
      fields arch after = calls.foldl Call.assign (fields arch descriptor)) ∧
    ∀ first second : Call arch, first.ctorIdx ≠ second.ctorIdx →
      run step descriptor [first, second] = run step descriptor [second, first] := by
  refine ⟨?_, fun _ _ => step_comm descriptor⟩
  induction calls generalizing descriptor with
  | nil => exact ⟨descriptor, rfl, rfl⟩
  | cons call rest ih =>
    obtain ⟨next, stepped, changed⟩ := fields_step descriptor call
    rw [run, stepped, Option.bind_some, List.foldl_cons, ← changed]
    exact ih next

/-- A trap gate is turned into an interrupt gate, and the selector is set twice. -/
theorem fields_independent_sample :
    (∃ after, run step ⟨0xCAFEEF0000081234, 7⟩ [(.setSegmentSelector 0x10 : Call .x86_64), .setType .interruptGate,
        .setOffset 0x123456789ABCDEF0, .setSegmentSelector 0x18, .setPresent false] = some after ∧
      fields .x86_64 after = ⟨0x18, .interruptGate, [true, true, true, false], 3, false, 0x123456789ABCDEF0⟩) ∧
    run step ⟨0xCAFEEF0000081234, 7⟩ [(.setPresent false : Call .x86_64), .setDpl 0] =
      run step ⟨0xCAFEEF0000081234, 7⟩ [.setDpl 0, (.setPresent false : Call .x86_64)] := by
  obtain ⟨⟨after, ran, changed⟩, commute⟩ := @fields_independent .x86_64 ⟨0xCAFEEF0000081234, 7⟩
    [.setSegmentSelector 0x10, .setType .interruptGate, .setOffset 0x123456789ABCDEF0, .setSegmentSelector 0x18,
      .setPresent false]
  exact ⟨⟨after, ran, changed⟩, commute _ _ (by decide)⟩

end InterruptDescriptor

end FlapjackOS.Interrupts
