import FlapjackOS.Common.Strtol

namespace FlapjackOS.CString

open Machine Stdio Strtol

variable {memory : Memory} {s1 s2 s t n : Nat} {text other : List UInt8}

section
variable (memory : Memory)

/-- An `unsigned char` that becomes an `int`. -/
def unsignedCharInt (c : UInt8) : Int := c.toNat

/-- `strcmp`. `none` stands for a comparison that goes on. -/
def strcmp : Nat → Nat → Nat → Option Int
  | 0, _, _ => none
  | fuel + 1, s1, s2 =>
    if memory s1 ≠ 0 ∧ memory s1 = memory s2 then strcmp fuel (s1 + 1) (s2 + 1)
    else some (unsignedCharInt (memory s1) - unsignedCharInt (memory s2))

/-- `strncmp`. The difference at the end is one of plain `char`s. -/
def strncmp (s1 s2 : Nat) : Nat → Int
  | 0 => 0
  | n + 1 =>
    if memory s1 ≠ 0 ∧ memory s1 = memory s2 then strncmp (s1 + 1) (s2 + 1) n
    else charInt (memory s1) - charInt (memory s2)

def memcmp (s1 s2 : Nat) : Nat → Int
  | 0 => 0
  | n + 1 =>
    if memory s1 ≠ memory s2 then unsignedCharInt (memory s1) - unsignedCharInt (memory s2)
    else memcmp (s1 + 1) (s2 + 1) n

/-- The `i`th bytes are the first that differ, with no terminator in front of them. -/
def DifferAt (s1 s2 i : Nat) : Prop :=
  (∀ j, j < i → memory (s1 + j) ≠ 0 ∧ memory (s1 + j) = memory (s2 + j)) ∧
    memory (s1 + i) ≠ memory (s2 + i)

/-- The bytes that decide the comparison are both ASCII, or neither of them is. -/
def DecidedOnOneSide (s1 s2 n : Nat) : Prop :=
  ∀ i, i < n → DifferAt memory s1 s2 i → (memory (s1 + i) < 128 ↔ memory (s2 + i) < 128)

instance (s1 s2 i : Nat) : Decidable (DifferAt memory s1 s2 i) := inferInstanceAs (Decidable (_ ∧ _))

instance (s1 s2 n : Nat) : Decidable (DecidedOnOneSide memory s1 s2 n) :=
  inferInstanceAs (Decidable (∀ i, i < n → _))

end

/-- The sign of a difference says which of two distinct bytes is smaller. -/
theorem compare_zero_iff (distinct : difference ≠ (0 : Int)) (different : (a : UInt8) ≠ b) :
    compare difference 0 = compare a b ↔ (difference < 0 ↔ a < b) := by
  change compareOfLessAndEq _ _ = compareOfLessAndEq _ _ ↔ _
  simp only [compareOfLessAndEq, distinct, different, ↓reduceIte]
  by_cases below : difference < 0 <;> by_cases less : a < b <;> simp [below, less]

theorem compare_unsignedCharInt (different : a ≠ b) :
    compare (unsignedCharInt a - unsignedCharInt b) 0 = compare a b := by
  have distinct : a.toNat ≠ b.toNat := fun same => different (UInt8.toNat_inj.mp same)
  rw [unsignedCharInt, unsignedCharInt, compare_zero_iff (by omega) different, UInt8.lt_iff_toNat_lt]
  omega

/-- Plain `char`s are ordered as bytes on either side of 128, and the other way across it. -/
theorem compare_charInt_iff (different : a ≠ b) :
    compare (charInt a - charInt b) 0 = compare a b ↔ (a < 128 ↔ b < 128) := by
  have distinct : a.toNat ≠ b.toNat := fun same => different (UInt8.toNat_inj.mp same)
  have small := a.toNat_lt
  have smaller := b.toNat_lt
  have limit : (128 : UInt8).toNat = 128 := rfl
  have left := charInt_cases a
  have right := charInt_cases b
  rw [compare_zero_iff (by omega) different]
  simp only [UInt8.lt_iff_toNat_lt, limit]
  omega

/-- The first bytes decide if they differ; the terminator comes before every other byte. -/
theorem compare_of_headD (nonzero : 0 ∉ text) (proper : 0 ∉ other) (different : text.headD 0 ≠ other.headD 0) :
    compare text other = compare (text.headD 0) (other.headD 0) := by
  have least : ∀ c : UInt8, c ≠ 0 → compare 0 c = .lt ∧ compare c 0 = .gt := by
    intro c positive
    have above : 0 < c := UInt8.pos_iff_ne_zero.mpr positive
    exact ⟨Std.compare_eq_lt.mpr above, Std.compare_eq_gt.mpr above⟩
  cases text with
  | nil =>
    cases other with
    | nil => exact absurd rfl different
    | cons d other => exact (least d different.symm).1.symm
  | cons c text =>
    cases other with
    | nil => exact (least c different).2.symm
    | cons d other =>
      rw [List.compare_cons_cons, List.headD_cons, List.headD_cons]
      have decided : compare c d ≠ .eq := fun same => different (Std.compare_eq_iff_eq.mp same)
      cases order : compare c d with
      | eq => exact absurd order decided
      | lt => rfl
      | gt => rfl

theorem compare_of_head (first : HoldsString memory s1 text) (second : HoldsString memory s2 other)
    (different : memory s1 ≠ memory s2) : compare text other = compare (memory s1) (memory s2) := by
  rw [first.head, second.head] at different ⊢
  exact compare_of_headD first.nonzero second.nonzero different

theorem decidedOnOneSide_differ (different : memory s1 ≠ memory s2) :
    DecidedOnOneSide memory s1 s2 (n + 1) ↔ (memory s1 < 128 ↔ memory s2 < 128) := by
  constructor
  · intro decided
    exact decided 0 (Nat.succ_pos n) ⟨fun j before => absurd before (Nat.not_lt_zero j), different⟩
  · rintro sides (_ | i) inside differ
    · exact sides
    · exact absurd (differ.1 0 (Nat.succ_pos i)).2 different

theorem decidedOnOneSide_agree (same : memory s1 = memory s2) (more : memory s1 ≠ 0) :
    DecidedOnOneSide memory s1 s2 (n + 1) ↔ DecidedOnOneSide memory (s1 + 1) (s2 + 1) n := by
  have shift : ∀ i, DifferAt memory s1 s2 (i + 1) ↔ DifferAt memory (s1 + 1) (s2 + 1) i := by
    intro i
    simp only [DifferAt, Nat.add_right_comm _ 1, Nat.add_assoc]
    refine and_congr_left fun _ => ⟨fun agree j before => ?_, fun agree j before => ?_⟩
    · exact agree (j + 1) (by omega)
    · cases j with
      | zero => exact ⟨more, same⟩
      | succ j => exact agree j (by omega)
  constructor
  · intro decided i inside differ
    simpa only [Nat.add_right_comm _ 1, Nat.add_assoc] using decided (i + 1) (by omega) ((shift i).mpr differ)
  · rintro decided (_ | i) inside differ
    · exact absurd same differ.2
    · simpa only [Nat.add_right_comm _ 1, Nat.add_assoc] using decided i (by omega) ((shift i).mp differ)

section
variable (first : HoldsString memory s1 text) (second : HoldsString memory s2 other)
include first second

theorem strcmp_order (enough : min text.length other.length < fuel) :
    ∃ result, strcmp memory fuel s1 s2 = some result ∧ compare result 0 = compare text other := by
  induction fuel generalizing s1 s2 text other with
  | zero => omega
  | succ fuel ih =>
    rw [strcmp]
    by_cases same : memory s1 = memory s2
    · by_cases ended : memory s1 = 0
      · rw [if_neg (fun both => both.1 ended), first.eq_nil ended, second.eq_nil (same ▸ ended), same, Int.sub_self]
        exact ⟨0, rfl, rfl⟩
      · obtain ⟨text, rfl, rest⟩ := first.eq_cons ended
        obtain ⟨other, rfl, others⟩ := second.eq_cons (same ▸ ended)
        rw [if_pos ⟨ended, same⟩, same, List.compare_cons_cons, Std.compare_self]
        exact ih rest others (by simp only [List.length_cons] at enough; omega)
    · rw [if_neg (fun both => same both.2), compare_of_head first second same]
      exact ⟨_, rfl, compare_unsignedCharInt same⟩

/-- The comparison ends at the latest with the terminator of the shorter string. -/
theorem memcmp_order :
    compare (memcmp memory s1 s2 (min text.length other.length + 1)) 0 = compare text other := by
  induction text generalizing s1 s2 other with
  | nil =>
    rw [List.length_nil, Nat.zero_min, memcmp]
    by_cases same : memory s1 = memory s2
    · rw [if_neg (not_not.mpr same), second.eq_nil (same ▸ first.terminated)]
      rfl
    · rw [if_pos same, compare_of_head first second same]
      exact compare_unsignedCharInt same
  | cons c text ih =>
    obtain ⟨here, rest⟩ := first.tail
    rw [memcmp]
    by_cases same : memory s1 = memory s2
    · obtain ⟨other, rfl, others⟩ := second.eq_cons (by
        rw [← same, here]
        exact fun zero => first.nonzero (zero ▸ List.mem_cons_self))
      rw [if_neg (not_not.mpr same), ← same, here, List.compare_cons_cons, Std.compare_self,
        List.length_cons, List.length_cons, Nat.add_min_add_right]
      exact ih rest others
    · rw [if_pos same, compare_of_head first second same]
      exact compare_unsignedCharInt same

theorem strncmp_order_iff :
    compare (strncmp memory s1 s2 n) 0 = compare (text.take n) (other.take n) ↔
      DecidedOnOneSide memory s1 s2 n := by
  induction n generalizing s1 s2 text other with
  | zero => exact iff_of_true rfl (fun i inside => absurd inside (Nat.not_lt_zero i))
  | succ n ih =>
    rw [strncmp]
    by_cases same : memory s1 = memory s2
    · by_cases ended : memory s1 = 0
      · rw [if_neg (fun both => both.1 ended), first.eq_nil ended, second.eq_nil (same ▸ ended), same, Int.sub_self]
        refine iff_of_true rfl ?_
        rintro (_ | i) _ differ
        · exact absurd same differ.2
        · exact absurd ended (differ.1 0 (Nat.succ_pos i)).1
      · rw [decidedOnOneSide_agree same ended, if_pos ⟨ended, same⟩]
        obtain ⟨text, rfl, rest⟩ := first.eq_cons ended
        obtain ⟨other, rfl, others⟩ := second.eq_cons (same ▸ ended)
        rw [same, List.take_succ_cons, List.take_succ_cons, List.compare_cons_cons, Std.compare_self]
        exact ih rest others
    · have heads : ∀ (line : List UInt8), (line.take (n + 1)).headD 0 = line.headD 0 := by
        intro line
        cases line with
        | nil => rfl
        | cons c line => rfl
      have decided := compare_of_headD (fun member => first.nonzero (List.mem_of_mem_take member))
        (fun member => second.nonzero (List.mem_of_mem_take member))
        (by rwa [heads, heads, ← first.head, ← second.head])
      rw [heads, heads, ← first.head, ← second.head] at decided
      rw [decidedOnOneSide_differ same, if_neg (fun both => same both.2), decided]
      exact compare_charInt_iff same

end

/-- The comparisons agree with the order of the strings as unsigned bytes, except where `strncmp`
stops at two bytes on different sides of 128. -/
theorem comparisons_ordered_iff (first : HoldsString memory s text) (second : HoldsString memory t other) :
    ((max text.length other.length < n →
        (∀ fuel, min text.length other.length < fuel → ∃ result, strcmp memory fuel s t = some result ∧
          compare result 0 = compare text other) ∧
        compare (strncmp memory s t n) 0 = compare text other ∧
        compare (memcmp memory s t (min text.length other.length + 1)) 0 = compare text other) ∧
      compare (strncmp memory s t n) 0 = compare (text.take n) (other.take n)) ↔
      DecidedOnOneSide memory s t n := by
  rw [← strncmp_order_iff first second]
  constructor
  · rintro ⟨-, bounded⟩
    exact bounded
  · intro bounded
    refine ⟨fun large => ⟨fun fuel enough => strcmp_order first second enough, ?_, memcmp_order first second⟩,
      bounded⟩
    rw [bounded, List.take_of_length_le (by omega), List.take_of_length_le (by omega)]

/-- "ab", "b" and "é" in UTF-8. -/
def sampleTexts : Memory :=
  poke (poke (poke (fun _ => 0) 100 [97, 98, 0]) 200 [98, 0]) 300 [195, 169, 0]

theorem comparisons_ordered_sample :
    (∀ fuel, 1 < fuel → ∃ result, strcmp sampleTexts fuel 100 200 = some result ∧
        compare result 0 = compare [97, 98] [(98 : UInt8)]) ∧
      compare (strncmp sampleTexts 100 200 3) 0 = compare [97, 98] [(98 : UInt8)] ∧
      compare (memcmp sampleTexts 100 200 2) 0 = compare [97, 98] [(98 : UInt8)] :=
  ((@comparisons_ordered_iff sampleTexts 100 200 3 [97, 98] [98] ⟨by decide, rfl, by decide⟩
    ⟨by decide, rfl, by decide⟩).mpr (by decide)).1 (by decide)

/-- "é" comes behind "b" for `strcmp`, and before it for `strncmp`. -/
theorem strncmp_accent_before_letter :
    HoldsString sampleTexts 300 [195, 169] ∧ HoldsString sampleTexts 200 [98] ∧
      strcmp sampleTexts 2 300 200 = some 97 ∧ strncmp sampleTexts 300 200 3 = -159 ∧
      compare (strncmp sampleTexts 300 200 3) 0 ≠ compare [195, 169] [(98 : UInt8)] :=
  ⟨⟨by decide, rfl, by decide⟩, ⟨by decide, rfl, by decide⟩, by decide, by decide, by decide⟩

end FlapjackOS.CString
