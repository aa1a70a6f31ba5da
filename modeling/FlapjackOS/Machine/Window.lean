import FlapjackOS.Machine.Memory

namespace FlapjackOS.Machine

/-- The addresses from `start` up to `finish`. -/
structure Window where
  start : Nat
  finish : Nat
  deriving DecidableEq, Repr

namespace Window

variable {window : Window} {modulus address count : Nat}

def Holds (window : Window) (x : Nat) : Prop := window.start ≤ x ∧ x < window.finish

instance : Decidable (window.Holds x) := inferInstanceAs (Decidable (_ ∧ _))

/-- Every byte of a block, whose addresses wrap around at the modulus, is in the window. -/
def Covers (window : Window) (modulus address count : Nat) : Prop :=
  ∀ k, k < count → window.Holds (wordAdd modulus address k)

instance : Decidable (window.Covers modulus address count) := Nat.decidableBallLT count _

/-- A block that is not empty lies between the ends of the window. -/
def Contains (window : Window) (address count : Nat) : Prop :=
  count = 0 ∨ window.start ≤ address ∧ address + count ≤ window.finish

instance : Decidable (window.Contains address count) := inferInstanceAs (Decidable (_ ∨ _))

/-- The window holds the same bytes. -/
def Agrees (window : Window) (memory other : Memory) : Prop :=
  ∀ x, window.Holds x → other x = memory x

theorem Agrees.trans {memory other last : Memory} (first : window.Agrees memory other)
    (second : window.Agrees other last) : window.Agrees memory last :=
  fun x inside => (second x inside).trans (first x inside)

/-- A window that leaves out the first or the last address has no block that wraps around. -/
theorem covers_iff (small : address < modulus) (fits : window.finish ≤ modulus)
    (partly : 0 < window.start ∨ window.finish < modulus) :
    window.Covers modulus address count ↔ window.Contains address count := by
  constructor
  · intro covers
    by_cases empty : count = 0
    · exact .inl empty
    · have first := covers 0 (Nat.pos_of_ne_zero empty)
      rw [wordAdd_of_lt small] at first
      have unwrapped : address + count ≤ modulus := by
        by_contra wraps
        have last := covers (modulus - 1 - address) (by omega)
        have again := covers (modulus - address) (by omega)
        rw [wordAdd_of_lt (by omega)] at last
        rw [wordAdd_of_le (by omega) (by omega)] at again
        obtain ⟨-, high⟩ := last
        obtain ⟨low, -⟩ := again
        omega
      have last := covers (count - 1) (by omega)
      rw [wordAdd_of_lt (by omega)] at last
      obtain ⟨low, -⟩ := first
      obtain ⟨-, high⟩ := last
      exact .inr ⟨low, by omega⟩
  · intro contains k inside
    rcases contains with empty | ⟨low, high⟩
    · omega
    · rw [wordAdd_of_lt (by omega)]
      exact ⟨by omega, by omega⟩

end Window

end FlapjackOS.Machine
