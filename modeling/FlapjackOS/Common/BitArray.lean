import FlapjackOS.Machine.Bits
import Mathlib.Data.Finset.Card
import Mathlib.Order.Interval.Finset.Nat

/-! `BitArray`, a compact array of bits. `none` stands for a failed assertion. -/

namespace FlapjackOS

open Bits

/-- `capacity` is the number of bits in the array. -/
structure BitArray (capacity : Nat) where
  storage : Nat → BitVec 8

namespace BitArray

variable {capacity bitIndex i : Nat} {array : BitArray capacity} {on : Bool}

/-- Whole words of four bytes. -/
def numberOfStorageBytes (numberOfBits : Nat) : Nat := (numberOfBits + 31) / 32 * 4

section
variable (array : BitArray capacity) (bitIndex : Nat)

def getByte : Option (BitVec 8) :=
  if bitIndex < capacity ∧ bitIndex / 8 < numberOfStorageBytes capacity then
    some (array.storage (bitIndex / 8))
  else none

/-- Assign to the byte that `getByte` refers to. -/
def putByte (byte : BitVec 8) : BitArray capacity where
  storage index := if index = bitIndex / 8 then byte else array.storage index

def test : Option Bool :=
  (array.getByte bitIndex).map (fun byte => testFlag byte (bitIndex % 8))

def assign (on : Bool) : Option (BitArray capacity) :=
  (array.getByte bitIndex).map (fun byte =>
    array.putByte bitIndex (setFlag byte (bitIndex % 8) on))

def set : Option (BitArray capacity) :=
  array.assign bitIndex true

def clear : Option (BitArray capacity) :=
  array.assign bitIndex false

end

def setAll (_ : BitArray capacity) : BitArray capacity where
  storage _ := 0xFF#8

/-- The bit stored at an index. -/
def bit (array : BitArray capacity) (index : Nat) : Bool :=
  testFlag (array.storage (index / 8)) (index % 8)

theorem getByte_of_lt (inside : bitIndex < capacity) :
    array.getByte bitIndex = some (array.storage (bitIndex / 8)) := by
  have stored : bitIndex / 8 < numberOfStorageBytes capacity := by
    simp only [numberOfStorageBytes]
    omega
  simp [getByte, inside, stored]

theorem test_of_lt (inside : bitIndex < capacity) :
    array.test bitIndex = some (array.bit bitIndex) := by
  simp [test, getByte_of_lt inside, bit]

theorem test_eq_none (outside : capacity ≤ bitIndex) : array.test bitIndex = none := by
  simp [test, getByte, Nat.not_lt.mpr outside]

theorem assign_of_lt (array : BitArray capacity) (on : Bool) (inside : bitIndex < capacity) :
    ∃ after, array.assign bitIndex on = some after ∧
      ∀ i, after.bit i = if i = bitIndex then on else array.bit i := by
  refine ⟨_, by rw [assign, getByte_of_lt inside, Option.map_some], fun i => ?_⟩
  have inside : i % 8 < 8 := Nat.mod_lt _ (by decide)
  by_cases sameByte : i / 8 = bitIndex / 8
  · have sameBit : i % 8 = bitIndex % 8 ↔ i = bitIndex := by omega
    simp [bit, putByte, sameByte, testFlag_setFlag inside, sameBit]
  · have different : i ≠ bitIndex := fun same => sameByte (by rw [same])
    simp [bit, putByte, sameByte, different]

@[simp]
theorem bit_setAll : array.setAll.bit i = true := by
  have inside : i % 8 < 8 := Nat.mod_lt _ (by decide)
  have ones : ∀ k, k < 8 → testFlag 0xFF#8 k = true := by decide
  exact ones _ inside

/-- The indexes of the clear bits. -/
def clearBits (array : BitArray capacity) : Finset Nat :=
  (Finset.range capacity).filter (fun i => array.bit i = false)

theorem mem_clearBits : i ∈ array.clearBits ↔ i < capacity ∧ array.bit i = false := by
  simp [clearBits]

@[simp]
theorem clearBits_setAll : array.setAll.clearBits = ∅ := by
  ext i
  simp [mem_clearBits]

end BitArray

end FlapjackOS
