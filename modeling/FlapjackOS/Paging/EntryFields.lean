import FlapjackOS.Paging.Entry

namespace FlapjackOS.Paging

open Bits Frames Runs

/-- `PageTableEntry`, or the class of the entries above the page table. -/
inductive EntryClass where
  | table
  | directory
  deriving DecidableEq

/-- The flags that have a setter. -/
inductive EntryFlag : Arch → EntryClass → Type where
  | present : EntryFlag arch cls
  | readwrite : EntryFlag arch cls
  | supervisor : EntryFlag arch cls
  | pageWriteThrough : EntryFlag arch cls
  | pageCacheDisabled : EntryFlag arch cls
  | accessed : EntryFlag arch cls
  | dirty : EntryFlag arch .table
  | patBit : EntryFlag arch .table
  | global : EntryFlag arch .table
  | executeDisabled : EntryFlag .x86_64 cls

variable {arch : Arch} {cls : EntryClass}

def EntryFlag.bit : EntryFlag arch cls → Nat
  | present => presentBit
  | readwrite => readwriteBit
  | supervisor => supervisorBit
  | pageWriteThrough => 3
  | pageCacheDisabled => 4
  | accessed => 5
  | dirty => 6
  | patBit => 7
  | global => globalBit
  | executeDisabled => 63

theorem EntryFlag.place (flag : EntryFlag arch cls) : flag.bit < 12 ∨ arch = .x86_64 ∧ flag.bit = 63 := by
  cases flag
  case executeDisabled => exact .inr ⟨rfl, rfl⟩
  all_goals exact .inl (Nat.le_of_ble_eq_true rfl)

/-- Directory entries have no setter for it. -/
def getPageSize (data : Word arch) : Nat := ((data &&& mask arch.bits 7) >>> 7).toNat

/-- Bit 47 is extended to the bits above the address. -/
def X86_64.PageTableEntry.getAddress (data : BitVec 64) : Nat :=
  let address := data &&& ~~~ addressZeroMask
  (if testFlag address 47 then address ||| 0xFFF0000000000000 else address).toNat

namespace EntryClass

def setAddress (data : Word arch) (address : Nat) : EntryClass → Option (Word arch)
  | table => setFrameAddress data address
  | directory => some (setTableAddress data address)

def getAddress : {arch : Arch} → EntryClass → Word arch → Nat
  | .i386, table, data => I386.PageTableEntry.getAddress data
  | .x86_64, table, data => X86_64.PageTableEntry.getAddress data
  | _, directory, data => getTableAddress data

/-- A call of a setter. The addresses are those that the field can hold. -/
inductive Call (arch : Arch) (cls : EntryClass) where
  | setFlag (flag : EntryFlag arch cls) (on : Bool)
  | setAddress (address : { a // a % pageSize = 0 ∧ Representable arch a })

def step (data : Word arch) : Call arch cls → Option (Word arch)
  | .setFlag flag on => some (setFlag data flag.bit on)
  | .setAddress address => cls.setAddress data address

def Call.flag? (flag : EntryFlag arch cls) : Call arch cls → Option Bool
  | .setFlag other on => if flag.bit = other.bit then some on else none
  | .setAddress _ => none

def Call.address? : Call arch cls → Option Nat
  | .setFlag _ _ => none
  | .setAddress address => some address

/-- The fields are what the last calls of their setters made of them. -/
structure Last (getAddress : Word arch → Nat) (data : Word arch) (calls : List (Call arch cls))
    (after : Word arch) : Prop where
  flags flag : testFlag after (EntryFlag.bit flag) =
    (calls.filterMap (Call.flag? flag)).getLast?.getD (testFlag data flag.bit)
  address : getAddress after = (calls.filterMap Call.address?).getLast?.getD (getAddress data)
  pageSize : cls = directory → getPageSize after = getPageSize data

theorem Last.append {calls more : List (Call arch cls)} (first : Last reader data calls next)
    (later : Last reader next more after) : Last reader data (calls ++ more) after where
  flags flag := by rw [later.flags, first.flags, List.filterMap_append, List.getLast?_append, Option.getD_or]
  address := by rw [later.address, first.address, List.filterMap_append, List.getLast?_append, Option.getD_or]
  pageSize above := (later.pageSize above).trans (first.pageSize above)

theorem flag_apart (flag : EntryFlag arch cls) : ~~~ addressZeroMask arch &&& mask arch.bits flag.bit = 0 := by
  rcases flag.place with low | ⟨rfl, high⟩
  · exact mask_low low
  · rw [high]
    decide

theorem step_last (data : Word arch) (call : Call arch cls) :
    ∃ next, step data call = some next ∧ Last getTableAddress data [call] next := by
  cases call with
  | setFlag flag on =>
    refine ⟨_, rfl, fun other => ?_, ?_, ?_⟩
    · have inside : other.bit < arch.bits := by
        rcases other.place with low | ⟨rfl, high⟩
        · exact flag_inside arch low
        · rw [high]
          decide
      rw [testFlag_setFlag inside]
      by_cases same : other.bit = flag.bit <;> simp [Call.flag?, same]
    · rw [getTableAddress_eq, setFlag_eq_put, put_and_of_apart, ← getTableAddress_eq]
      · rfl
      · rw [BitVec.and_comm, flag_apart]
    · rintro rfl
      rw [getPageSize, setFlag_eq_put, put_and_of_apart, getPageSize]
      cases arch <;> cases flag <;> decide
  | setAddress address =>
    have set : cls.setAddress data address = some (setTableAddress data address) := by
      cases cls with
      | table => rw [setAddress, setFrameAddress_eq, if_pos (.inr address.2.1)]
      | directory => rfl
    refine ⟨_, set, fun flag => ?_, getTableAddress_setTableAddress address.2.1 address.2.2, fun _ => ?_⟩
    · rw [testFlag, setTableAddress_eq, put_and_of_apart (flag_apart flag)]
      rfl
    · rw [getPageSize, setTableAddress_eq, put_and_of_apart (mask_low (by decide)), getPageSize]

theorem run_last (data : Word arch) (calls : List (Call arch cls)) :
    ∃ after, run step data calls = some after ∧ Last getTableAddress data calls after := by
  induction calls generalizing data with
  | nil => exact ⟨data, rfl, fun _ => rfl, rfl, fun _ => rfl⟩
  | cons call rest ih =>
    obtain ⟨next, stepped, first⟩ := step_last data call
    obtain ⟨after, ran, later⟩ := ih next
    exact ⟨after, Option.bind_eq_some_iff.mpr ⟨next, stepped, ran⟩, first.append later⟩

theorem getAddress_eq (data : Word arch) : cls.getAddress data =
    if arch = .x86_64 ∧ cls = table ∧ (getTableAddress data).testBit 47 then
      getTableAddress data ||| 0xFFF0000000000000 else getTableAddress data := by
  cases arch with
  | i386 => cases cls <;> rfl
  | x86_64 =>
    cases cls with
    | directory => rfl
    | table =>
      simp only [true_and]
      exact (apply_ite BitVec.toNat _ _ _).trans (by rw [testFlag_eq (by decide), BitVec.toNat_or]; rfl)

/-- The last calls decide, but `get_address` of a page table entry extends bit 47 on x86_64. -/
theorem fields_last_iff (data : Word arch) (calls : List (Call arch cls)) :
    (∃ after, run step data calls = some after ∧ Last cls.getAddress data calls after) ↔
    (arch = .x86_64 ∧ cls = table → ∀ address ∈ (calls.filterMap Call.address?).getLast?,
      address.testBit 47 = false) := by
  obtain ⟨after, ran, last⟩ := run_last data calls
  have address := last.address
  constructor
  · rintro ⟨other, again, shown⟩ ⟨rfl, rfl⟩ given found
    cases ran.symm.trans again
    have shown := shown.address
    rw [found, Option.getD_some] at address shown
    rw [getAddress_eq, address] at shown
    refine Bool.eq_false_iff.mpr fun extended => ?_
    rw [if_pos ⟨rfl, rfl, extended⟩] at shown
    have small := (representable_frameAddress after).2
    have large : 0xFFF0000000000000 ≤ given ||| 0xFFF0000000000000 := Nat.right_le_or
    rw [frameAddress_eq, address] at small
    omega
  · refine fun low => ⟨after, ran, last.flags, ?_, last.pageSize⟩
    rw [getAddress_eq, address]
    cases found : (calls.filterMap Call.address?).getLast? with
    | none => exact (getAddress_eq data).symm
    | some given =>
      exact if_neg fun extended => Bool.eq_false_iff.mp (low ⟨extended.1, extended.2.1⟩ given found) extended.2.2

theorem sign_extended : (X86_64.PageTableEntry.setAddress 0 0x800000000000).map X86_64.PageTableEntry.getAddress =
    some 0xFFF0800000000000 := by
  decide

end EntryClass

end FlapjackOS.Paging
