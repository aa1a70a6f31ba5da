import Mathlib.Data.Nat.ModEq
import Mathlib.Logic.Function.Basic

namespace FlapjackOS.Carousel

/-- The position that lies so many steps after the start. -/
def around (start : Fin size) (steps : Nat) : Fin size :=
  ⟨(start.val + steps) % size, Nat.mod_lt _ start.pos⟩

@[simp] theorem around_zero (start : Fin size) : around start 0 = start :=
  Fin.ext (Nat.mod_eq_of_lt start.isLt)

@[simp] theorem around_around (start : Fin size) (i j : Nat) :
    around (around start i) j = around start (i + j) := by
  apply Fin.ext
  simp [around, Nat.add_assoc]

theorem around_size (start : Fin size) : around start size = start := by
  apply Fin.ext
  simp [around, Nat.mod_eq_of_lt start.isLt]

theorem around_mod (start : Fin size) (steps : Nat) : around start (steps % size) = around start steps := by
  apply Fin.ext
  simp [around]

theorem around_back (start : Fin size) : around (around start (size - 1)) 1 = start := by
  have positive := start.pos
  rw [around_around, show size - 1 + 1 = size by omega, around_size]

theorem around_injective {start : Fin size} (firstBound : i < size) (secondBound : j < size)
    (same : around start i = around start j) : i = j := by
  have congruent : start.val + i ≡ start.val + j [MOD size] := Fin.val_eq_of_eq same
  have reduced : i % size = j % size := Nat.ModEq.add_left_cancel' start.val congruent
  rwa [Nat.mod_eq_of_lt firstBound, Nat.mod_eq_of_lt secondBound] at reduced

/-- Going around from the start, the slots hold these values. -/
def Reads (slots : Fin size → β) (start : Fin size) (values : List β) : Prop :=
  ∀ i value, values[i]? = some value → slots (around start i) = value

section
variable {slots : Fin size → β} {start : Fin size} {values more : List β} {value : β}

theorem reads_nil : Reads slots start [] := by
  intro i value found
  cases found

theorem Reads.append (reads : Reads slots start values)
    (last : slots (around start values.length) = value) : Reads slots start (values ++ [value]) := by
  intro i other found
  rcases Nat.lt_trichotomy i values.length with inside | rfl | outside
  · exact reads i other (by rwa [List.getElem?_append_left inside] at found)
  · simp at found
    exact last.trans found
  · simp [List.getElem?_append_right (Nat.le_of_lt outside), show i - values.length ≠ 0 by omega] at found

theorem Reads.cons (reads : Reads slots (around start 1) values) (first : slots start = value) :
    Reads slots start (value :: values) := by
  intro i other found
  cases i with
  | zero =>
    rw [around_zero, first]
    exact Option.some.inj found
  | succ i =>
    have here := reads i other found
    rwa [around_around, Nat.add_comm] at here

theorem Reads.head (reads : Reads slots start (value :: values)) : slots start = value := by
  have here := reads 0 value rfl
  rwa [around_zero] at here

theorem Reads.tail (reads : Reads slots start (value :: values)) :
    Reads slots (around start 1) values := by
  intro i other found
  rw [around_around, Nat.add_comm]
  exact reads (i + 1) other found

theorem Reads.left (reads : Reads slots start (values ++ more)) : Reads slots start values := by
  intro i value found
  have inside : i < values.length := (List.getElem?_eq_some_iff.mp found).1
  exact reads i value (by rwa [List.getElem?_append_left inside])

/-- A write at a position of the ring changes the value that is read there, if any. -/
theorem Reads.update (reads : Reads slots start values) (value : β) (fits : values.length ≤ size)
    (bound : i < size) :
    Reads (Function.update slots (around start i) value) start (values.set i value) := by
  intro j other found
  by_cases same : i = j
  · subst same
    have inside : i < values.length := by
      have := (List.getElem?_eq_some_iff.mp found).1
      rwa [List.length_set] at this
    rw [List.getElem?_set_self inside] at found
    rw [Function.update_self]
    exact Option.some.inj found
  · rw [List.getElem?_set_ne same] at found
    have inside : j < values.length := (List.getElem?_eq_some_iff.mp found).1
    rw [Function.update_of_ne]
    · exact reads j other found
    · intro meet
      exact same (around_injective bound (by omega) meet.symm)

end

end FlapjackOS.Carousel
