import FlapjackOS.Common.Strtol

namespace FlapjackOS.Strtol

open Machine Stdio

/-- The base of the numeral, and how many characters stand in front of its digits. -/
def prefixOf (base : Nat) (text : List UInt8) : Nat × Nat :=
  if (base = 0 ∨ base = 16) ∧ literal ['0', 'x'] <+: text then (16, 2)
  else if base = 0 then (if literal ['0'] <+: text then 8 else 10, 0)
  else (base, 0)

/-- The value of the numeral that a text begins with, and where it ends. -/
def reference (base : Nat) (text : List UInt8) : Int × Nat :=
  let (sign, signed) := signOf text
  let (base, skipped) := prefixOf base (text.drop signed)
  readDigits text sign base (signed + skipped)

/-- The digits of an octal numeral are a single zero. -/
def LoneZero (base : Nat) (text : List UInt8) : Prop :=
  (base = 0 ∨ base = 8) ∧ ∃ rest, text.drop (signOf text).2 = ascii '0' :: rest ∧
    rest.head? ≠ some (ascii 'x') ∧ rest.takeWhile (isDigitIn 8) = []

section
variable {memory : Memory} {str base : Nat} {text : List UInt8}

theorem valueOf_zero_cons (base : Nat) (digits : List UInt8) :
    valueOf base (ascii '0' :: digits) = valueOf base digits := by
  have zero : (digitOf (ascii '0')).getD 0 = 0 := rfl
  rw [valueOf, List.reverse_cons, List.map_append, List.map_singleton, zero, Nat.ofDigits_append, valueOf]
  simp

theorem octal_shape_iff (text : List UInt8) :
    literal ['0'] <+: text ∧ ¬ literal ['0', 'x'] <+: text ↔
      ∃ rest, text = ascii '0' :: rest ∧ rest.head? ≠ some (ascii 'x') := by
  cases text with
  | nil => simp [literal]
  | cons c rest =>
    cases rest with
    | nil => simp [literal, eq_comm]
    | cons d rest =>
      simp only [literal, List.map_cons, List.map_nil, List.cons_prefix_cons, List.nil_prefix, and_true,
        List.cons.injEq, ne_eq, eq_comm]
      constructor
      · rintro ⟨zero, other⟩
        exact ⟨d :: rest, ⟨zero, rfl⟩, fun same => other ⟨zero, by simpa using same⟩⟩
      · rintro ⟨later, ⟨zero, rfl⟩, other⟩
        exact ⟨zero, fun both => other (by simpa using both.2)⟩

/-- Where the octal prefix is eaten, the reference begins one character earlier. -/
theorem reading_octal (octal : base = 0 ∨ base = 8) (shape : text.drop (signOf text).2 = ascii '0' :: rest)
    (decimal : rest.head? ≠ some (ascii 'x')) :
    reading base text = readDigits text (signOf text).1 8 ((signOf text).2 + 1) ∧
      reference base text = readDigits text (signOf text).1 8 (signOf text).2 := by
  have begins := (octal_shape_iff (text.drop (signOf text).2)).mpr ⟨rest, shape, decimal⟩
  constructor
  · simp only [reading, eatenPrefix, if_pos (And.intro octal begins)]
  · have base8 : prefixOf base (text.drop (signOf text).2) = (8, 0) := by
      rw [prefixOf, if_neg (fun hex => begins.2 hex.2)]
      rcases octal with rfl | rfl
      · rw [if_pos rfl, if_pos begins.1]
      · rfl
    simp only [reference, base8, Nat.add_zero]

theorem reading_of_loneZero (lone : LoneZero base text) :
    (reading base text).2 = 0 ∧ (reference base text).2 ≠ 0 := by
  obtain ⟨octal, rest, shape, decimal, none⟩ := lone
  obtain ⟨eaten, kept⟩ := reading_octal octal shape decimal
  have digit : isDigitIn 8 (ascii '0') = true := rfl
  have behind : text.drop ((signOf text).2 + 1) = rest := by rw [← List.drop_drop, shape]; rfl
  constructor
  · rw [eaten, readDigits, behind, if_pos none]
  · rw [kept, readDigits, shape, List.takeWhile_cons, if_pos digit, if_neg (List.cons_ne_nil _ _), List.length_cons]
    omega

theorem reading_eq_reference (other : ¬ LoneZero base text) : reading base text = reference base text := by
  by_cases octal : (base = 0 ∨ base = 8) ∧ literal ['0'] <+: text.drop (signOf text).2 ∧
      ¬ literal ['0', 'x'] <+: text.drop (signOf text).2
  · obtain ⟨rest, shape, decimal⟩ := (octal_shape_iff _).mp octal.2
    obtain ⟨eaten, kept⟩ := reading_octal octal.1 shape decimal
    have digit : isDigitIn 8 (ascii '0') = true := rfl
    have behind : text.drop ((signOf text).2 + 1) = rest := by rw [← List.drop_drop, shape]; rfl
    have more : rest.takeWhile (isDigitIn 8) ≠ [] := fun none => other ⟨octal.1, rest, shape, decimal, none⟩
    rw [eaten, kept, readDigits, readDigits, behind, shape, List.takeWhile_cons, if_pos digit, if_neg more,
      if_neg (List.cons_ne_nil _ _), valueOf_zero_cons, List.length_cons]
    simp only [Prod.mk.injEq, true_and]
    omega
  · have same : eatenPrefix base (text.drop (signOf text).2) = prefixOf base (text.drop (signOf text).2) := by
      rw [eatenPrefix, if_neg octal, prefixOf]
      split_ifs with hex zero leading
      · rfl
      · exact absurd ⟨.inl zero, leading, fun both => hex ⟨.inl zero, both⟩⟩ octal
      · rfl
      · rfl
    simp only [reading, reference, same]

/-- `strtol` reads what the reference reads, except that it takes a lone zero for no number. -/
theorem strtol_reference_iff (holds : HoldsString memory str text) (buffer : str ≠ 0)
    (known : base = 0 ∨ 2 ≤ base ∧ base ≤ 34) (low : -2 ^ (Arch.bits arch - 1) ≤ (reference base text).1)
    (high : (reference base text).1 < 2 ^ (arch.bits - 1)) (enough : text.length < fuel) :
    (∃ result, strtol arch fuel memory str base = some (result, some (str + (reference base text).2)) ∧
      result.toInt = (reference base text).1) ↔ ¬ LoneZero base text := by
  rw [strtol_eq_reading arch holds buffer (by omega) enough]
  constructor
  · rintro ⟨result, returned, -⟩ lone
    obtain ⟨start, later⟩ := reading_of_loneZero lone
    simp only [Option.some.injEq, Prod.mk.injEq] at returned
    omega
  · intro other
    rw [reading_eq_reference other]
    exact ⟨_, rfl, toInt_ofInt_long arch low high⟩

/-- "-0x1f" and "0" -/
def sampleNumerals : Memory :=
  poke (poke (fun _ => 0) 100 [45, 48, 120, 49, 102, 0]) 200 [48, 0]

theorem strtol_reference_sample :
    ∃ result, strtol .i386 6 sampleNumerals 100 0 = some (result, some (100 + 5)) ∧ result.toInt = -31 := by
  have holds : HoldsString sampleNumerals 100 [45, 48, 120, 49, 102] := ⟨by decide, rfl, by decide⟩
  have other : ¬ LoneZero 0 [45, 48, 120, 49, 102] := by
    rintro ⟨-, rest, shape, decimal, -⟩
    cases shape
    exact decimal rfl
  exact (strtol_reference_iff holds (by decide) (.inl rfl) (by decide) (by decide) (by decide)).mpr other

/-- `strtol("0", &end, 0)` is zero, and `end` says that there was no number. -/
theorem strtol_lone_zero :
    HoldsString sampleNumerals 200 [48] ∧ reference 0 [48] = (0, 1) ∧
      strtol .i386 2 sampleNumerals 200 0 = some (0, some 200) ∧
      strtol .i386 2 sampleNumerals 200 10 = some (0, some 201) :=
  ⟨⟨by decide, rfl, by decide⟩, by decide, by decide, by decide⟩

end

end FlapjackOS.Strtol
