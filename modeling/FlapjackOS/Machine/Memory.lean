import Mathlib.Data.Nat.ModEq

/-! Byte-addressed memory with little-endian words, and arithmetic modulo a
word size. Nothing here depends on the program that uses the memory. -/

namespace FlapjackOS.Machine

/-- Sum of two machine words of the given modulus. -/
def wordAdd (modulus x y : Nat) : Nat := (x + y) % modulus

/-- Difference of two machine words of the given modulus. -/
def wordSub (modulus x y : Nat) : Nat := (x + (modulus - y % modulus)) % modulus

theorem wordAdd_of_lt (fits : x + y < modulus) : wordAdd modulus x y = x + y :=
  Nat.mod_eq_of_lt fits

theorem wordAdd_of_le (wraps : modulus ≤ x + y) (small : x + y < 2 * modulus) :
    wordAdd modulus x y = x + y - modulus := by
  rw [wordAdd, Nat.mod_eq_sub_mod wraps]
  exact Nat.mod_eq_of_lt (by omega)

/-- Memory as a total map from byte addresses to bytes. -/
abbrev Memory := Nat → UInt8

/-- Replace the byte at one address. -/
def storeByte (memory : Memory) (address : Nat) (value : UInt8) : Memory :=
  fun x => if x = address then value else memory x

@[simp] theorem storeByte_same : storeByte memory address value address = value := by
  simp [storeByte]

theorem storeByte_other (different : x ≠ address) :
    storeByte memory address value x = memory x := by
  simp [storeByte, different]

/-- Read `count` bytes as a little-endian number. -/
def load (memory : Memory) (address : Nat) : Nat → Nat
  | 0 => 0
  | count + 1 => (memory address).toNat + 256 * load memory (address + 1) count

/-- Write the `count` low bytes of a number in little-endian order. -/
def store (memory : Memory) (address count value : Nat) : Memory := fun x =>
  if address ≤ x ∧ x < address + count then UInt8.ofNat (value / 256 ^ (x - address)) else memory x

theorem store_outside (outside : x < address ∨ address + count ≤ x) :
    store memory address count value x = memory x := by
  rw [store, if_neg]
  omega

theorem store_comm (apart : address + count ≤ target ∨ target + width ≤ address) :
    store (store memory address count value) target width other =
      store (store memory target width other) address count value := by
  funext x
  by_cases first : address ≤ x ∧ x < address + count
  · rw [store_outside (by omega), store, store, if_pos first, if_pos first]
  · rw [@store_outside x address count (store memory target width other) value (by omega)]
    simp only [store, if_neg first]

theorem load_congr (same : ∀ x, address ≤ x → x < address + count → other x = memory x) :
    load other address count = load memory address count := by
  induction count generalizing address with
  | zero => rfl
  | succ count ih =>
    rw [load, load, same address (by omega) (by omega)]
    rw [ih (fun x low high => same x (by omega) (by omega))]

theorem load_eq_zero (zero : load memory address count = 0) (low : address ≤ x)
    (high : x < address + count) : memory x = 0 := by
  induction count generalizing address with
  | zero => omega
  | succ count ih =>
    rw [load] at zero
    by_cases first : x = address
    · subst first
      exact UInt8.toNat_inj.mp (by simp only [UInt8.toNat_zero]; omega)
    · have rest : load memory (address + 1) count = 0 := by omega
      exact ih rest (by omega) (by omega)

theorem load_store_disjoint
    (apart : address + width ≤ target ∨ target + count ≤ address) :
    load (store memory target count value) address width = load memory address width :=
  load_congr (fun _ _ _ => store_outside (by omega))

private theorem load_digits
    (digits : ∀ index, index < count → memory (address + index) = UInt8.ofNat (value / 256 ^ index)) :
    load memory address count = value % 256 ^ count := by
  induction count generalizing address value with
  | zero => simp [load, Nat.mod_one]
  | succ count ih =>
    have first : (memory address).toNat = value % 256 := by
      have digit := digits 0 (by omega)
      simp only [Nat.add_zero, Nat.pow_zero, Nat.div_one] at digit
      rw [digit, UInt8.toNat_ofNat']
    have rest : load memory (address + 1) count = value / 256 % 256 ^ count := by
      apply ih
      intro index inside
      have digit := digits (index + 1) (by omega)
      rw [show address + 1 + index = address + (index + 1) by omega, digit,
        Nat.div_div_eq_div_mul, Nat.pow_succ, Nat.mul_comm]
    rw [load, first, rest, Nat.pow_succ, Nat.mul_comm (256 ^ count), Nat.mod_mul]

theorem load_store_same :
    load (store memory address count value) address count = value % 256 ^ count := by
  apply load_digits
  intro index inside
  rw [store, if_pos (by omega), Nat.add_sub_cancel_left]

theorem load_lt : load memory address count < 256 ^ count := by
  induction count generalizing address with
  | zero => simp [load]
  | succ count ih =>
    have low := (memory address).toNat_lt
    have high := @ih (address + 1)
    rw [load, Nat.pow_succ]
    omega

end FlapjackOS.Machine
