import FlapjackOS.Machine.Arch

namespace FlapjackOS.CString

open Machine

/-- `((char *)dst)[i] = ((const char *)src)[i]` -/
def copyByte (arch : Arch) (memory : Memory) (dst src i : Nat) : Memory :=
  storeByte memory (arch.add dst i) (memory (arch.add src i))

/-- `memcpy`: the bytes are copied in ascending order. -/
def memcpy (arch : Arch) (memory : Memory) (dst src : Nat) : Nat → Memory
  | 0 => memory
  | n + 1 => copyByte arch (memcpy arch memory dst src n) dst src n

/-- `memset` -/
def memset (arch : Arch) (memory : Memory) (dst : Nat) (value : UInt8) : Nat → Memory
  | 0 => memory
  | n + 1 => storeByte (memset arch memory dst value n) (arch.add dst n) value

/-- The loop `for (size_t i = begin; i != end; i += step)` of `memmove`. -/
def memmoveLoop (arch : Arch) (dst src stop step : Nat) : Nat → Nat → Memory → Option Memory
  | fuel, i, memory =>
    if i = stop then some memory
    else match fuel with
      | 0 => none
      | fuel + 1 =>
        memmoveLoop arch dst src stop step fuel (arch.add i step) (copyByte arch memory dst src i)

/-- `memmove`: descending when the destination lies above the source. The
counter of the descending loop ends by wrapping around to `~0`. -/
def memmove (arch : Arch) (memory : Memory) (dst src n : Nat) : Option Memory :=
  if src ≠ dst then
    if src < dst then memmoveLoop arch dst src arch.sizeMax arch.sizeMax n (arch.sub n 1) memory
    else memmoveLoop arch dst src n 1 n 0 memory
  else some memory

section
variable {arch : Arch} {memory : Memory} {dst src n x : Nat}

section
variable (fits : dst + n ≤ arch.modulus)
include fits

theorem memcpy_outside (outside : x < dst ∨ dst + n ≤ x) :
    memcpy arch memory dst src n x = memory x := by
  induction n with
  | zero => rfl
  | succ n ih =>
    rw [memcpy, copyByte, Arch.add_of_lt (by omega), storeByte_other (by omega)]
    exact ih (by omega) (by omega)

theorem memset_outside (outside : x < dst ∨ dst + n ≤ x) :
    memset arch memory dst value n x = memory x := by
  induction n with
  | zero => rfl
  | succ n ih =>
    rw [memset, Arch.add_of_lt (by omega), storeByte_other (by omega)]
    exact ih (by omega) (by omega)

theorem memset_inside (inside : k < n) : memset arch memory dst value n (dst + k) = value := by
  induction n with
  | zero => omega
  | succ n ih =>
    rw [memset, Arch.add_of_lt (by omega)]
    by_cases last : k = n
    · rw [last, storeByte_same]
    · rw [storeByte_other (by omega)]
      exact ih (by omega) (by omega)

/-- The source is read while the destination is written, so they must be apart. -/
theorem memcpy_inside (room : src + n ≤ arch.modulus) (apart : src + n ≤ dst ∨ dst + n ≤ src)
    (inside : k < n) :
    memcpy arch memory dst src n (dst + k) = memory (src + k) := by
  induction n with
  | zero => omega
  | succ n ih =>
    rw [memcpy, copyByte, Arch.add_of_lt (by omega), Arch.add_of_lt (by omega)]
    by_cases last : k = n
    · rw [last, storeByte_same]
      exact memcpy_outside (by omega) (by omega)
    · rw [storeByte_other (by omega)]
      exact ih (by omega) (by omega) (by omega) (by omega)

end

/-- The contents a move of `n` bytes from `src` to `dst` leaves behind: every
destination byte is the old source byte, everything else is kept. -/
def moved (memory : Memory) (dst src n x : Nat) : UInt8 :=
  if dst ≤ x ∧ x < dst + n then memory (src + (x - dst)) else memory x

private theorem descending_next (arch : Arch) (k : Nat) :
    arch.add k arch.sizeMax = arch.sub k 1 := by
  have large := arch.modulus_large
  simp only [Arch.add, Arch.sub, Arch.sizeMax, wordAdd, wordSub]
  rw [Nat.mod_eq_of_lt (show 1 < arch.modulus by omega)]

/-- The descending loop with `k` bytes left to copy. -/
private theorem memmoveLoop_descending (above : src < dst) (fits : dst + k ≤ arch.modulus) :
    ∃ result, memmoveLoop arch dst src arch.sizeMax arch.sizeMax k (arch.sub k 1) memory =
      some result ∧ ∀ x, result x = moved memory dst src k x := by
  have large := arch.modulus_large
  induction k generalizing memory with
  | zero =>
    have done : arch.sub 0 1 = arch.sizeMax := by
      rw [← descending_next arch 0]
      exact (Arch.add_of_lt (by simp only [Arch.sizeMax]; omega)).trans (Nat.zero_add _)
    refine ⟨memory, ?_, fun x => ?_⟩
    · simp [memmoveLoop, done]
    · rw [moved, if_neg (by omega)]
  | succ k ih =>
    have index : arch.sub (k + 1) 1 = k := Arch.sub_of_le (by omega) (by omega)
    have running : k ≠ arch.sizeMax := by simp only [Arch.sizeMax]; omega
    obtain ⟨result, returned, contents⟩ := @ih (copyByte arch memory dst src k) (by omega)
    refine ⟨result, ?_, fun x => ?_⟩
    · rw [index, memmoveLoop, if_neg running, descending_next arch k]
      exact returned
    · rw [contents, copyByte, Arch.add_of_lt (by omega), Arch.add_of_lt (by omega)]
      simp only [moved, storeByte]
      by_cases last : x = dst + k
      · subst last
        rw [if_neg (by omega), if_pos rfl, if_pos (by omega), Nat.add_sub_cancel_left]
      · by_cases inside : dst ≤ x ∧ x < dst + k
        · rw [if_pos inside, if_neg (by omega), if_pos (by omega)]
        · rw [if_neg inside, if_neg last, if_neg (by omega)]

/-- The ascending loop with the first `j` bytes already copied. -/
private theorem memmoveLoop_ascending (below : dst < src) (fits : src + n ≤ arch.modulus)
    (count : j + k = n) :
    ∃ result, memmoveLoop arch dst src n 1 k j memory = some result ∧
      ∀ x, result x = if dst + j ≤ x ∧ x < dst + n then memory (src + (x - dst)) else memory x := by
  induction k generalizing memory j with
  | zero =>
    refine ⟨memory, ?_, fun x => ?_⟩
    · rw [memmoveLoop, if_pos (by omega)]
    · rw [if_neg (by omega)]
  | succ k ih =>
    obtain ⟨result, returned, contents⟩ :=
      @ih (copyByte arch memory dst src j) (j + 1) (by omega)
    refine ⟨result, ?_, fun x => ?_⟩
    · rw [memmoveLoop, if_neg (by omega), Arch.add_of_lt (by omega)]
      exact returned
    · rw [contents, copyByte, Arch.add_of_lt (by omega), Arch.add_of_lt (by omega)]
      simp only [storeByte]
      by_cases first : x = dst + j
      · subst first
        rw [if_neg (by omega), if_pos rfl, if_pos (by omega), Nat.add_sub_cancel_left]
      · by_cases inside : dst + (j + 1) ≤ x ∧ x < dst + n
        · rw [if_pos inside, if_neg (by omega), if_pos (by omega)]
        · rw [if_neg inside, if_neg first, if_neg (by omega)]

/-- `memmove` terminates and moves the bytes for every kind of overlap. -/
theorem memmove_contents (dstFits : dst + n ≤ arch.modulus) (srcFits : src + n ≤ arch.modulus) :
    ∃ result, memmove arch memory dst src n = some result ∧
      ∀ x, result x = moved memory dst src n x := by
  unfold memmove
  rcases Nat.lt_trichotomy src dst with above | same | below
  · rw [if_pos (by omega), if_pos above]
    exact memmoveLoop_descending above dstFits
  · refine ⟨memory, by simp [same], fun x => ?_⟩
    rw [moved, same]
    split
    · congr 1; omega
    · rfl
  · rw [if_pos (by omega), if_neg (by omega)]
    exact memmoveLoop_ascending below srcFits (Nat.zero_add n)

/-- Ranges that do not wrap around are moved byte by byte, and nothing else is written. -/
theorem memmove_moves_range (dstFits : dst + n ≤ arch.modulus) (srcFits : src + n ≤ arch.modulus) :
    ∃ result, memmove arch memory dst src n = some result ∧
      (∀ i, i < n → result (dst + i) = memory (src + i)) ∧
      ∀ x, x < dst ∨ dst + n ≤ x → result x = memory x := by
  obtain ⟨result, returned, contents⟩ := memmove_contents dstFits srcFits
  refine ⟨result, returned, fun i inside => ?_, fun x outside => ?_⟩
  · rw [contents, moved, if_pos (by omega), Nat.add_sub_cancel_left]
  · rw [contents, moved, if_neg (by omega)]

/-- Up by two, into the upper end of the address space. -/
theorem memmove_moves_range_sample :
    ∃ result, memmove .i386 (fun address => UInt8.ofNat address) 4294967288 4294967286 8 = some result ∧
      (∀ i, i < 8 → result (4294967288 + i) = UInt8.ofNat (4294967286 + i)) ∧
      ∀ x, x < 4294967288 ∨ 4294967288 + 8 ≤ x → result x = UInt8.ofNat x :=
  memmove_moves_range (by decide) (by decide)

end

end FlapjackOS.CString
