import FlapjackOS.Machine.Memory

/-! The two machines the kernel is built for, with the width of `size_t` and
`uintptr_t` on each of them. -/

namespace FlapjackOS

open Machine

inductive Arch where
  | i386
  | x86_64
  deriving DecidableEq, Repr

namespace Arch

/-- `sizeof(void*)`, which is also `sizeof(size_t)`. -/
def wordBytes : Arch → Nat
  | i386 => 4
  | x86_64 => 8

/-- The number of bits of a machine word. -/
def bits : Arch → Nat
  | i386 => 32
  | x86_64 => 64

section
variable (arch : Arch)

/-- One more than `SIZE_MAX`. -/
def modulus : Nat := 256 ^ arch.wordBytes

def sizeMax : Nat := arch.modulus - 1

/-- `x + y` on `size_t` operands. -/
def add (x y : Nat) : Nat := wordAdd arch.modulus x y

/-- `x - y` on `size_t` operands. -/
def sub (x y : Nat) : Nat := wordSub arch.modulus x y

theorem wordBytes_cases : arch.wordBytes = 4 ∨ arch.wordBytes = 8 := by
  cases arch <;> simp [wordBytes]

theorem wordBytes_pos : 0 < arch.wordBytes := by
  cases arch <;> decide

end

theorem modulus_large (arch : Arch) : 4294967296 ≤ arch.modulus := by
  cases arch <;> decide

theorem modulus_pos (arch : Arch) : 0 < arch.modulus := by
  cases arch <;> decide

theorem modulus_aligned (arch : Arch) : arch.modulus % 4 = 0 := by
  cases arch <;> decide

theorem sub_lt (arch : Arch) (x y : Nat) : arch.sub x y < arch.modulus :=
  Nat.mod_lt _ arch.modulus_pos

variable {arch : Arch}

theorem add_of_lt (fits : x + y < arch.modulus) : arch.add x y = x + y :=
  wordAdd_of_lt fits

theorem sub_of_le (ordered : y ≤ x) (fits : x < arch.modulus) :
    arch.sub x y = x - y := by
  have small : y % arch.modulus = y := Nat.mod_eq_of_lt (by omega)
  rw [sub, wordSub, small, show x + (arch.modulus - y) = (x - y) + arch.modulus by omega, Nat.add_mod_right]
  exact Nat.mod_eq_of_lt (by omega)

theorem add_of_le (wraps : arch.modulus ≤ x + y) (small : x + y < 2 * arch.modulus) :
    arch.add x y = x + y - arch.modulus := wordAdd_of_le wraps small

theorem sub_of_lt (borrows : x < y) (fits : y < arch.modulus) :
    arch.sub x y = x + arch.modulus - y := by
  have small : y % arch.modulus = y := Nat.mod_eq_of_lt fits
  rw [sub, wordSub, small, Nat.mod_eq_of_lt (by omega)]
  omega

theorem add_add_of_lt (fits : x + y + z < arch.modulus) :
    arch.add (arch.add x y) z = x + y + z := by
  rw [add_of_lt (show x + y < arch.modulus by omega), add_of_lt fits]

theorem sub_sub_of_le (ordered : y + z ≤ x) (fits : x < arch.modulus) :
    arch.sub (arch.sub x y) z = x - y - z := by
  have first : arch.sub x y = x - y := sub_of_le (by omega) fits
  rw [first, sub_of_le (by omega) (by omega)]

theorem sub_sub_of_lt (borrows : x < y + z) (fits : y + z < arch.modulus) :
    arch.sub (arch.sub x y) z = x + arch.modulus - y - z := by
  by_cases less : x < y
  · have borrow : arch.sub x y = x + arch.modulus - y := sub_of_lt less (by omega)
    rw [borrow, sub_of_le (by omega) (by omega)]
  · have whole : arch.sub x y = x - y := sub_of_le (by omega) (by omega)
    rw [whole, sub_of_lt (by omega) (by omega)]
    omega

end Arch

end FlapjackOS
