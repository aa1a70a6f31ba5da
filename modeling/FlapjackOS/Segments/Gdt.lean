import FlapjackOS.Machine.Arch
import Mathlib.Tactic.IntervalCases

/-! The Global Descriptor Tables of the two platforms, and the descriptor of the TSS in them. -/

namespace FlapjackOS.Segments

def segselKernelTssIdxLo : Fin 7 := 1
def segselKernelTssIdxHi : Fin 7 := 2

/-- `sizeof(TaskStateSegment)`, from the sizes of its members. -/
def sizeofTaskStateSegment : Arch → Nat
  | .i386 => ([2, 2, 4, 2, 2, 4, 2, 2, 4, 2, 2] ++ List.replicate 11 4 ++ List.replicate 16 2).sum
  | .x86_64 => ([4] ++ List.replicate 12 8 ++ [2, 2]).sum

/-- The base address that the CPU decodes from a descriptor of 8 bytes. -/
def decodedBase (descriptor : BitVec 64) : Nat :=
  (descriptor.extractLsb' 16 24).toNat + 2 ^ 24 * (descriptor.extractLsb' 56 8).toNat

/-- The base address that the CPU decodes from a descriptor of 16 bytes. -/
def decodedBase64 (lo hi : BitVec 64) : Nat := decodedBase lo + 2 ^ 32 * (hi.extractLsb' 0 32).toNat

def decodedLimit (descriptor : BitVec 64) : Nat :=
  (descriptor.extractLsb' 0 16).toNat + 2 ^ 16 * (descriptor.extractLsb' 48 4).toNat

namespace I386

structure GlobalDescriptorTableEntry where
  limit_0_15 : BitVec 16
  base_0_15 : BitVec 16
  base_16_23 : BitVec 8
  access : BitVec 8
  limit_16_19 : BitVec 4
  flags : BitVec 4
  base_24_31 : BitVec 8

namespace GlobalDescriptorTableEntry

/-- `!!flag` as an integer. -/
def bit (flag : Bool) : BitVec 8 := (BitVec.ofBool flag).setWidth 8

def init (base limit : BitVec 32) (gr sz pr : Bool) (privl : BitVec 8) (ex dc rw ac : Bool) :
    GlobalDescriptorTableEntry where
  limit_0_15 := (limit &&& 0b00000000000000001111111111111111).setWidth 16
  base_0_15 := (base &&& 0b00000000000000001111111111111111).setWidth 16
  base_16_23 := ((base &&& 0b00000000111111110000000000000000) >>> 16).setWidth 8
  access := bit pr <<< 7 ||| (privl &&& 0b11) <<< 5 ||| bit pr <<< 4 ||| bit ex <<< 3 ||| bit dc <<< 2 |||
    bit rw <<< 1 ||| bit ac
  limit_16_19 := ((limit &&& 0b00000000000011110000000000000000) >>> 16).setWidth 4
  flags := (bit gr <<< 3 ||| bit sz <<< 2).setWidth 4
  base_24_31 := ((base &&& 0b11111111000000000000000000000000) >>> 24).setWidth 8

/-- The entry in memory. -/
def word (entry : GlobalDescriptorTableEntry) : BitVec 64 :=
  entry.limit_0_15.setWidth 64 ||| entry.base_0_15.setWidth 64 <<< 16 ||| entry.base_16_23.setWidth 64 <<< 32 |||
    entry.access.setWidth 64 <<< 40 ||| entry.limit_16_19.setWidth 64 <<< 48 ||| entry.flags.setWidth 64 <<< 52 |||
    entry.base_24_31.setWidth 64 <<< 56

end GlobalDescriptorTableEntry

open GlobalDescriptorTableEntry in
/-- The entries in order. The third one is left zeroed. -/
def establishFlatMapping (tss : BitVec 32) :=
  #v[init 0 0 false false false 0 false false false false,
    { init tss 0x67 false false true 0 true false false true with access := 0x89 },
    ⟨0, 0, 0, 0, 0, 0, 0⟩,
    init 0 0x000fffff true true true 0 true false true true,
    init 0 0x000fffff true true true 0 false false true true,
    init 0 0x000fffff true true true 3 true false true true,
    init 0 0x000fffff true true true 3 false false true false]

end I386

namespace X86_64

def declareGdtEntry (base limit g db l avl p dpl s type : BitVec 64) : BitVec 64 :=
  (base >>> 24 &&& 0xFF) <<< 56 |||
  (g &&& 0x1) <<< 55 |||
  (db &&& 0x1) <<< 54 |||
  (l &&& 0x1) <<< 53 |||
  (avl &&& 0x1) <<< 52 |||
  (limit >>> 16 &&& 0xF) <<< 48 |||
  (p &&& 0x1) <<< 47 |||
  (dpl &&& 0x3) <<< 45 |||
  (s &&& 0x1) <<< 44 |||
  (type &&& 0xf) <<< 40 |||
  (base &&& 0xFFF) <<< 16 |||
  (limit &&& 0xFFFF)

/-- The lower eight bytes of the entry for the TSS. -/
def declareGdtTssEntryLo (base limit avl dpl g p type : BitVec 64) : BitVec 64 :=
  (base >>> 24 &&& 0xFF) <<< 56 |||
  (g &&& 0x1) <<< 55 |||
  (avl &&& 0x1) <<< 52 |||
  (limit >>> 16 &&& 0xF) <<< 48 |||
  (p &&& 0x1) <<< 47 |||
  (dpl &&& 0x3) <<< 45 |||
  (type &&& 0xf) <<< 40 |||
  (base &&& 0xFFF) <<< 16 |||
  (limit &&& 0xFFFF)

/-- The upper eight bytes. -/
def declareGdtTssEntryHi (base : BitVec 64) : BitVec 64 := base >>> 32 &&& 0xFFFFFFFF

/-- The entries in order. The first one is left zeroed. -/
def init (tss : BitVec 64) :=
  #v[0,
    declareGdtTssEntryLo tss (sizeofTaskStateSegment .x86_64 - 1) 0 0 0 1 0b1001,
    declareGdtTssEntryHi tss,
    declareGdtEntry 0 0xFFFFF 1 0 1 0 1 0 1 0b1010,
    declareGdtEntry 0 0xFFFFF 1 0 1 0 1 0 1 0b0010,
    declareGdtEntry 0 0xFFFFF 1 0 1 0 1 3 1 0b1010,
    declareGdtEntry 0 0xFFFFF 1 0 1 0 1 3 1 0b0010]

section
variable (tss : BitVec 64)

/-- The fields of the descriptor. Only twelve of the lower bits of the address are stored. -/
theorem lo_fields :
    let lo := declareGdtTssEntryLo tss 0x67 0 0 0 1 0b1001
    lo.extractLsb' 16 24 = (tss.setWidth 12).setWidth 24 ∧ lo.extractLsb' 56 8 = tss.extractLsb' 24 8 ∧
      lo.extractLsb' 0 16 = 0x67 ∧ lo.extractLsb' 48 4 = 0 := by
  refine ⟨?_, ?_, ?_, ?_⟩ <;> apply BitVec.eq_of_getLsbD_eq <;> intro i inside <;>
    interval_cases i <;> simp [declareGdtTssEntryLo]

theorem hi_field : (declareGdtTssEntryHi tss).extractLsb' 0 32 = tss.extractLsb' 32 32 := by
  apply BitVec.eq_of_getLsbD_eq
  intro i inside
  interval_cases i <;> simp [declareGdtTssEntryHi]

theorem decoded_init :
    decodedBase64 ((init tss).get segselKernelTssIdxLo) ((init tss).get segselKernelTssIdxHi) =
        tss.toNat % 2 ^ 12 + 2 ^ 24 * (tss.toNat / 2 ^ 24) ∧
      decodedLimit ((init tss).get segselKernelTssIdxLo) = 0x67 := by
  change decodedBase64 (declareGdtTssEntryLo tss 0x67 0 0 0 1 0b1001) (declareGdtTssEntryHi tss) = _ ∧
    decodedLimit (declareGdtTssEntryLo tss 0x67 0 0 0 1 0b1001) = _
  obtain ⟨base, top, limit, rest⟩ := lo_fields tss
  rw [decodedBase64, decodedBase, base, top, hi_field, decodedLimit, limit, rest]
  simp only [BitVec.extractLsb'_toNat, BitVec.toNat_setWidth, Nat.shiftRight_eq_div_pow]
  have bound := tss.isLt
  exact ⟨by omega, rfl⟩

end

end X86_64

namespace I386

open GlobalDescriptorTableEntry

theorem word_fields (tss : BitVec 32) :
    let word := word { init tss 0x67 false false true 0 true false false true with access := 0x89 }
    word.extractLsb' 16 24 = tss.setWidth 24 ∧ word.extractLsb' 56 8 = tss.extractLsb' 24 8 ∧
      word.extractLsb' 0 16 = 0x67 ∧ word.extractLsb' 48 4 = 0 := by
  refine ⟨?_, ?_, ?_, ?_⟩ <;> apply BitVec.eq_of_getLsbD_eq <;> intro i inside <;>
    interval_cases i <;> simp [word, init]

theorem decoded_mapping (tss : BitVec 32) :
    let entry := (establishFlatMapping tss).get segselKernelTssIdxLo
    decodedBase entry.word = tss.toNat ∧ decodedLimit entry.word = 0x67 := by
  change decodedBase (word { init tss 0x67 false false true 0 true false false true with access := 0x89 }) = _ ∧
    decodedLimit (word { init tss 0x67 false false true 0 true false false true with access := 0x89 }) = _
  obtain ⟨base, top, limit, rest⟩ := word_fields tss
  rw [decodedBase, base, top, decodedLimit, limit, rest]
  simp only [BitVec.extractLsb'_toNat, BitVec.toNat_setWidth, Nat.shiftRight_eq_div_pow]
  have bound := tss.isLt
  exact ⟨by omega, rfl⟩

end I386

/-- On i386, the descriptor gives the address and the limit of the TSS. On x86_64, it does so exactly if
the bits 12 to 23 of the address are zero. -/
theorem tss_descriptor_iff (tss32 : BitVec 32) (tss : BitVec 64) :
    (let entry := (I386.establishFlatMapping tss32).get segselKernelTssIdxLo
     decodedBase entry.word = tss32.toNat ∧ decodedLimit entry.word = sizeofTaskStateSegment .i386 - 1) ∧
    let lo := (X86_64.init tss).get segselKernelTssIdxLo
    (decodedBase64 lo ((X86_64.init tss).get segselKernelTssIdxHi) = tss.toNat ∧
        decodedLimit lo = sizeofTaskStateSegment .x86_64 - 1 ↔ tss.toNat % 2 ^ 24 < 2 ^ 12) := by
  refine ⟨I386.decoded_mapping tss32, ?_⟩
  obtain ⟨base, limit⟩ := X86_64.decoded_init tss
  refine (and_iff_left limit).trans ?_
  rw [base]
  omega

/-- The TSS at 0x1000 is taken to be at 0. -/
theorem tss_descriptor_loses_bits :
    decodedBase64 ((X86_64.init 0x1000).get segselKernelTssIdxLo) ((X86_64.init 0x1000).get segselKernelTssIdxHi) = 0 := by
  decide

end FlapjackOS.Segments
