import FlapjackOS.Common.Length
import Mathlib.Data.BitVec
import Mathlib.Data.List.TakeWhile
import Mathlib.Data.Nat.Digits.Lemmas
import Mathlib.Tactic.Ring

namespace FlapjackOS.Strtol

open Machine Allotment Stdio

/-- A `char` that becomes an `int`. -/
def charInt (c : UInt8) : Int := c.toInt8.toInt

def isdigit (c : Int) : Bool := 48 ≤ c && c ≤ 57

def islower (c : Int) : Bool := 97 ≤ c && c ≤ 122

def isupper (c : Int) : Bool := 65 ≤ c && c ≤ 90

def isAlphanumeric (c : Int) : Bool := isdigit c || islower c || isupper c

def getDigitForChar (c : Int) : Int :=
  if isdigit c then c - 48
  else if islower c then c - 97 + 10
  else if isupper c then c - 65 + 10
  else 0

def isValidDigitForChar (base c : Int) : Bool := isAlphanumeric c && getDigitForChar c < base

/-- The factor for the sign, and `str_` behind the sign. -/
def eatSign (arch : Arch) (memory : Memory) (str : Nat) : BitVec arch.bits × Nat :=
  if memory str = ascii '+' then (1, str + 1)
  else if memory str = ascii '-' then (-1, str + 1)
  else (1, str)

def hasOctalPrefix (memory : Memory) (str : Nat) : Bool :=
  memory str = ascii '0' && memory (str + 1) ≠ ascii 'x'

def hasHexPrefix (memory : Memory) (str : Nat) : Bool :=
  memory str = ascii '0' && memory (str + 1) = ascii 'x'

/-- `str_` and `base_` behind the prefix. -/
def eatBasePrefix (memory : Memory) (str : Nat) (base : Int) : Nat × Int :=
  if (base = 0 ∨ base = 8) ∧ hasOctalPrefix memory str then (str + 1, 8)
  else if (base = 0 ∨ base = 16) ∧ hasHexPrefix memory str then (str + 2, 16)
  else if base = 0 then (str, 10)
  else (str, base)

/-- `none` stands for a number that goes on. -/
def scanToEndOfNumber (memory : Memory) (base : Int) : Nat → Nat → Option Nat
  | 0, _ => none
  | fuel + 1, str =>
    if isValidDigitForChar base (charInt (memory str)) then scanToEndOfNumber memory base fuel (str + 1)
    else some str

/-- `pow_long`. A `long` has the width of a machine word. -/
def powLong (arch : Arch) (base : Int) : Nat → BitVec arch.bits
  | 0 => 1
  | exponent + 1 => powLong arch base exponent * BitVec.ofInt arch.bits base

/-- The loop of `parse_number_digits`. Its first argument is the address behind `p`. -/
def parseLoop (arch : Arch) (memory : Memory) (base : Int) (str : Nat) :
    Nat → Nat → BitVec arch.bits → BitVec arch.bits
  | 0, _, accum => accum
  | p + 1, exponent, accum =>
    if isValidDigitForChar base (charInt (memory p)) ∧ str ≤ p then
      parseLoop arch memory base str p (exponent + 1) (accum +
        BitVec.ofInt arch.bits (getDigitForChar (charInt (memory p))) * powLong arch base exponent)
    else accum

def parseNumberDigits (arch : Arch) (memory : Memory) (base : Int) (str endptr : Nat) : BitVec arch.bits :=
  parseLoop arch memory base str endptr 0 0

/-- `StringToLongConverter::convert`, with what is stored to `*endptr`. -/
def strtol (arch : Arch) (fuel : Nat) (memory : Memory) (originalString : Nat) (base : Int) :
    Option (BitVec arch.bits × Option Nat) :=
  if originalString = 0 then some (0, none)
  else if base < 0 ∨ 35 ≤ base then some (0, none)
  else
    let (multiplier, str) := eatSign arch memory originalString
    let (str, base) := eatBasePrefix memory str base
    (scanToEndOfNumber memory base fuel str).map fun endptr =>
      if endptr = str then (0, some originalString)
      else (parseNumberDigits arch memory base str endptr * multiplier, some endptr)

/-- The digit that a character stands for. -/
def digitOf (c : UInt8) : Option Nat :=
  if 48 ≤ c.toNat ∧ c.toNat ≤ 57 then some (c.toNat - 48)
  else if 97 ≤ c.toNat ∧ c.toNat ≤ 122 then some (c.toNat - 97 + 10)
  else if 65 ≤ c.toNat ∧ c.toNat ≤ 90 then some (c.toNat - 65 + 10)
  else none

def isDigitIn (base : Nat) (c : UInt8) : Bool := (digitOf c).any (· < base)

/-- The number that digits stand for, the highest first. -/
def valueOf (base : Nat) (digits : List UInt8) : Nat :=
  Nat.ofDigits base (digits.reverse.map fun c => (digitOf c).getD 0)

/-- The factor for the sign, and how many characters it takes. -/
def signOf : List UInt8 → Int × Nat
  | [] => (1, 0)
  | c :: _ => if c = ascii '+' then (1, 1) else if c = ascii '-' then (-1, 1) else (1, 0)

/-- The maximal run of digits from `start` on: its value, and the place behind it. -/
def readDigits (text : List UInt8) (sign : Int) (base start : Nat) : Int × Nat :=
  let digits := (text.drop start).takeWhile (isDigitIn base)
  if digits = [] then (0, 0) else (sign * valueOf base digits, start + digits.length)

def digitValue (c : UInt8) : Nat := (getDigitForChar (charInt c)).toNat

theorem charInt_cases (c : UInt8) :
    (c.toNat < 128 ∧ charInt c = c.toNat) ∨ (128 ≤ c.toNat ∧ charInt c = c.toNat - 256) := by
  have signed : charInt c = c.toBitVec.toInt := rfl
  rw [signed, BitVec.toInt_eq_toNat_cond, UInt8.toNat_toBitVec]
  split
  · exact .inl ⟨by omega, rfl⟩
  · exact .inr ⟨by omega, rfl⟩

/-- The characters by their ranges, none of which reaches the other half of the bytes. -/
theorem getDigitForChar_charInt (c : UInt8) :
    isAlphanumeric (charInt c) = (digitOf c).isSome ∧ getDigitForChar (charInt c) = (digitOf c).getD 0 := by
  have small := c.toNat_lt
  have cases := charInt_cases c
  simp only [isAlphanumeric, getDigitForChar, isdigit, islower, isupper, digitOf, Bool.and_eq_true, decide_eq_true_eq]
  split_ifs <;> simp <;> omega

theorem isValidDigitForChar_eq (base : Nat) (c : UInt8) :
    isValidDigitForChar base (charInt c) = isDigitIn base c := by
  obtain ⟨known, value⟩ := getDigitForChar_charInt c
  rw [isValidDigitForChar, known, value, isDigitIn]
  cases digitOf c <;> simp

theorem digitValue_eq (c : UInt8) : digitValue c = (digitOf c).getD 0 := by
  rw [digitValue, (getDigitForChar_charInt c).2, Int.toNat_natCast]

theorem powLong_eq (arch : Arch) (base exponent : Nat) :
    powLong arch base exponent = ((base ^ exponent : Nat) : BitVec arch.bits) := by
  induction exponent with
  | zero => simp [powLong]
  | succ exponent ih =>
    rw [powLong, ih, BitVec.ofInt_natCast, ← BitVec.natCast_eq_ofNat, pow_succ]
    push_cast
    ring

/-- The scan ends behind the digits; the terminator is none. -/
theorem scanToEndOfNumber_takeWhile (base : Nat) (holds : HoldsString memory str text) (enough : text.length < fuel) :
    scanToEndOfNumber memory base fuel str =
      some (str + (text.takeWhile fun c => isValidDigitForChar base (charInt c)).length) := by
  induction text generalizing str fuel with
  | nil =>
    obtain ⟨fuel, rfl⟩ := Nat.exists_eq_succ_of_ne_zero (Nat.ne_zero_of_lt enough)
    have terminated : memory str = 0 := holds.terminated
    have invalid : isValidDigitForChar base (charInt 0) = false := rfl
    simp [scanToEndOfNumber, terminated, invalid]
  | cons c text ih =>
    obtain ⟨fuel, rfl⟩ := Nat.exists_eq_succ_of_ne_zero (Nat.ne_zero_of_lt enough)
    obtain ⟨here, rest⟩ := holds.tail
    rw [scanToEndOfNumber, here, List.takeWhile_cons]
    by_cases digit : isValidDigitForChar base (charInt c)
    · rw [if_pos digit, if_pos digit, ih rest (Nat.lt_of_succ_lt_succ enough), List.length_cons,
        Nat.add_assoc, Nat.add_comm 1]
    · rw [if_neg digit, if_neg digit]
      rfl

/-- By induction on the digits from the lowest on; the address goes down to the first of them. -/
theorem parseLoop_eq {tmp : List UInt8}
    (chars : ∀ i, i < tmp.length → some (memory (str + i)) = tmp.reverse[i]?)
    (valid : ∀ c ∈ tmp, isValidDigitForChar (base : Nat) (charInt c)) :
    parseLoop arch memory base str (str + tmp.length) exponent accum = accum +
      ((base ^ exponent * Nat.ofDigits base (tmp.map digitValue) : Nat) : BitVec arch.bits) := by
  induction tmp generalizing exponent accum with
  | nil =>
    cases str with
    | zero => simp [parseLoop]
    | succ p =>
      have before : ¬ p + 1 ≤ p := by omega
      simp [parseLoop, before]
  | cons c tmp ih =>
    obtain ⟨first, others⟩ := List.forall_mem_cons.mp valid
    have here : memory (str + tmp.length) = c := by
      have char := chars tmp.length (Nat.lt_succ_self _)
      rw [List.reverse_cons, List.getElem?_append_right (by simp)] at char
      simpa using char
    have before : ∀ i, i < tmp.length → some (memory (str + i)) = tmp.reverse[i]? := by
      intro i inside
      rw [chars i (Nat.lt_succ_of_lt inside), List.reverse_cons, List.getElem?_append_left (by simpa)]
    have digit : BitVec.ofInt arch.bits (getDigitForChar (charInt c)) = ((digitValue c : Nat) : BitVec arch.bits) := by
      rw [(getDigitForChar_charInt c).2, digitValue_eq, BitVec.ofInt_natCast, ← BitVec.natCast_eq_ofNat]
    rw [List.length_cons, ← Nat.add_assoc, parseLoop, here, if_pos ⟨first, Nat.le_add_right _ _⟩,
      ih before others, digit, powLong_eq, List.map_cons, Nat.ofDigits_cons, pow_succ]
    push_cast
    ring

section
variable {memory : Memory} {str : Nat} {text : List UInt8}

theorem parseNumberDigits_takeWhile (arch : Arch) (base : Nat) (holds : HoldsString memory str text) :
    parseNumberDigits arch memory base str (str + (text.takeWhile (isDigitIn base)).length) =
      ((valueOf base (text.takeWhile (isDigitIn base)) : Nat) : BitVec arch.bits) := by
  have run : text.takeWhile (isDigitIn base) <+: text := List.takeWhile_prefix _
  have chars : ∀ i, i < (text.takeWhile (isDigitIn base)).reverse.length →
      some (memory (str + i)) = (text.takeWhile (isDigitIn base)).reverse.reverse[i]? := by
    intro i inside
    rw [List.length_reverse] at inside
    rw [List.reverse_reverse, holds.chars i (Nat.lt_of_lt_of_le inside run.length_le),
      List.prefix_iff_getElem?.mp run i inside, List.getElem?_eq_getElem inside]
  have valid : ∀ c ∈ (text.takeWhile (isDigitIn base)).reverse, isValidDigitForChar base (charInt c) := by
    intro c member
    rw [isValidDigitForChar_eq]
    exact List.mem_takeWhile_imp (List.mem_reverse.mp member)
  rw [parseNumberDigits, ← List.length_reverse, parseLoop_eq chars valid, pow_zero, one_mul, zero_add, valueOf,
    funext digitValue_eq]

theorem eatSign_eq (arch : Arch) (holds : HoldsString memory str text) :
    eatSign arch memory str = (BitVec.ofInt arch.bits (signOf text).1, str + (signOf text).2) := by
  cases text with
  | nil =>
    have terminated : memory str = 0 := holds.terminated
    rw [eatSign, terminated, if_neg (by decide), if_neg (by decide)]
    rfl
  | cons c text =>
    rw [eatSign, holds.tail.1, signOf]
    split_ifs with plus minus
    · rfl
    · rw [BitVec.ofInt_neg]
      rfl
    · rfl

theorem signOf_le (text : List UInt8) : (signOf text).2 ≤ text.length := by
  cases text with
  | nil => exact le_refl 0
  | cons c text =>
    rw [signOf]
    split_ifs <;> simp

/-- The base and the number of characters behind `eatBasePrefix`. -/
def eatenPrefix (base : Nat) (text : List UInt8) : Nat × Nat :=
  if (base = 0 ∨ base = 8) ∧ literal ['0'] <+: text ∧ ¬ literal ['0', 'x'] <+: text then (8, 1)
  else if (base = 0 ∨ base = 16) ∧ literal ['0', 'x'] <+: text then (16, 2)
  else if base = 0 then (10, 0)
  else (base, 0)

theorem eatenPrefix_le (base : Nat) (text : List UInt8) : (eatenPrefix base text).2 ≤ text.length := by
  unfold eatenPrefix
  split_ifs with octal hex
  · exact octal.2.1.length_le
  · exact hex.2.length_le
  · exact Nat.zero_le _
  · exact Nat.zero_le _

theorem cons_prefix_iff (holds : HoldsString memory str text) (visible : c ≠ 0) :
    c :: word <+: text ↔ memory str = c ∧ word <+: text.tail := by
  cases text with
  | nil =>
    have terminated : memory str = 0 := holds.terminated
    rw [terminated]
    exact iff_of_false (by simp) (fun both => visible both.1.symm)
  | cons d text =>
    rw [holds.tail.1, List.cons_prefix_cons, eq_comm]
    rfl

theorem octal_prefix_iff (holds : HoldsString memory str text) :
    literal ['0'] <+: text ↔ memory str = ascii '0' := by
  have begins := @cons_prefix_iff memory str text (ascii '0') [] holds (by decide)
  rwa [and_iff_left List.nil_prefix] at begins

theorem hex_prefix_iff (holds : HoldsString memory str text) :
    literal ['0', 'x'] <+: text ↔ memory str = ascii '0' ∧ memory (str + 1) = ascii 'x' := by
  have begins := @cons_prefix_iff memory str text (ascii '0') [ascii 'x'] holds (by decide)
  refine begins.trans (and_congr_right fun here => ?_)
  obtain ⟨rest, rfl, later⟩ := holds.eq_cons (by rw [here]; decide)
  have follows := @cons_prefix_iff memory (str + 1) rest (ascii 'x') [] later (by decide)
  rwa [and_iff_left List.nil_prefix] at follows

theorem eatBasePrefix_eq (base : Nat) (holds : HoldsString memory str text) :
    eatBasePrefix memory str base = (str + (eatenPrefix base text).2, ((eatenPrefix base text).1 : Int)) := by
  have octal : hasOctalPrefix memory str ↔ literal ['0'] <+: text ∧ ¬ literal ['0', 'x'] <+: text := by
    rw [octal_prefix_iff holds, hex_prefix_iff holds, hasOctalPrefix, Bool.and_eq_true, decide_eq_true_eq,
      decide_eq_true_eq]
    tauto
  have hex : hasHexPrefix memory str ↔ literal ['0', 'x'] <+: text := by
    rw [hex_prefix_iff holds, hasHexPrefix]
    simp
  have same : ∀ k : Nat, ((base : Int) = k ↔ base = k) := fun k => Int.natCast_inj
  have bases : ((base : Int) = 0 ↔ base = 0) ∧ ((base : Int) = 8 ↔ base = 8) ∧ ((base : Int) = 16 ↔ base = 16) :=
    ⟨same 0, same 8, same 16⟩
  simp only [eatBasePrefix, eatenPrefix, octal, hex, bases]
  split_ifs <;> rfl

/-- What `strtol` reads, as a matter of the text alone. -/
def reading (base : Nat) (text : List UInt8) : Int × Nat :=
  let (sign, signed) := signOf text
  let (base, skipped) := eatenPrefix base (text.drop signed)
  readDigits text sign base (signed + skipped)

theorem strtol_eq_reading (arch : Arch) {base : Nat} (holds : HoldsString memory str text) (buffer : str ≠ 0)
    (known : base < 35) (enough : text.length < fuel) :
    strtol arch fuel memory str base =
      some (BitVec.ofInt arch.bits (reading base text).1, some (str + (reading base text).2)) := by
  have signed := holds.drop (signOf_le text)
  have skipped := signed.drop (eatenPrefix_le base _)
  rw [Nat.add_assoc, List.drop_drop] at skipped
  rw [strtol, if_neg buffer, if_neg (by omega), eatSign_eq arch holds]
  simp only [eatBasePrefix_eq base signed, Nat.add_assoc]
  rw [scanToEndOfNumber_takeWhile _ skipped (by rw [List.length_drop]; omega), funext (isValidDigitForChar_eq _),
    Option.map_some, parseNumberDigits_takeWhile arch _ skipped]
  simp only [reading, readDigits]
  generalize (text.drop _).takeWhile _ = digits
  by_cases empty : digits = []
  · simp [empty]
  · have moved := mt List.eq_nil_of_length_eq_zero empty
    rw [if_neg (by omega), if_neg empty, Nat.add_assoc, BitVec.natCast_eq_ofNat, ← BitVec.ofInt_natCast,
      ← BitVec.ofInt_mul, Int.mul_comm]

end

/-- Digits of a number, the lowest first. -/
structure Reads (base : Nat) (tmp : List UInt8) (number : Nat) : Prop where
  nonempty : tmp ≠ []
  valid : ∀ c ∈ tmp, isValidDigitForChar base (charInt c)
  value : Nat.ofDigits base (tmp.map digitValue) = number

/-- The table's digits are read as what they stand for. -/
def Readable (digits : List UInt8) (base : Nat) : Prop :=
  ∀ d, d < base → isValidDigitForChar base (charInt (digits.getD d 0)) ∧ digitValue (digits.getD d 0) = d

theorem readable_decimal : Readable digitsLower 10 := by
  unfold Readable
  decide

theorem Readable.digit (readable : Readable digits base) (small : d < base) (listed : digits[d]? = some c) :
    isValidDigitForChar base (charInt c) ∧ digitValue c = d := by
  have reads := readable d small
  rwa [List.getD_eq_getElem?_getD, listed, Option.getD_some] at reads

section
variable (readable : Readable digits base) (large : 1 < base)
include readable large

theorem digitLoop_reads (filled : digitLoop digits base slots value = some tmp) :
    tmp.map digitValue = Nat.digits base value ∧ ∀ c ∈ tmp, isValidDigitForChar base (charInt c) := by
  induction slots generalizing value tmp with
  | zero =>
    rw [digitLoop] at filled
    split at filled
    · cases filled
      simp [*]
    · cases filled
  | succ slots ih =>
    rw [digitLoop] at filled
    split at filled
    case isTrue zero =>
      cases filled
      simp [zero]
    case isFalse nonzero =>
      obtain ⟨digit, found, filled⟩ := Option.bind_eq_some_iff.mp filled
      obtain ⟨rest, others, filled⟩ := Option.bind_eq_some_iff.mp filled
      cases filled
      obtain ⟨valid, reads⟩ := readable.digit (Nat.mod_lt _ (by omega)) found
      obtain ⟨same, rest⟩ := ih others
      rw [List.map_cons, reads, same, Nat.digits_def' large (Nat.pos_of_ne_zero nonzero)]
      exact ⟨rfl, List.forall_mem_cons.mpr ⟨valid, rest⟩⟩

theorem uintDigits_reads (filled : uintDigits digits base value = some tmp) :
    Reads base tmp value.toNat := by
  unfold uintDigits at filled
  split at filled
  case isTrue zero =>
    obtain ⟨c, listed, rfl⟩ := Option.map_eq_some_iff.mp filled
    subst zero
    obtain ⟨valid, reads⟩ := readable.digit (Nat.zero_lt_of_lt large) listed
    exact ⟨List.cons_ne_nil _ _, by simpa using valid, by simp [reads]⟩
  case isFalse nonzero =>
    obtain ⟨same, valid⟩ := digitLoop_reads readable large filled
    refine ⟨?_, valid, by rw [same, Nat.ofDigits_digits]⟩
    rintro rfl
    exact nonzero (BitVec.eq_of_toNat_eq (Nat.digits_eq_nil_iff_eq_zero.mp same.symm))

/-- Digits are printed for a number that is not negative. -/
theorem intDigits_reads (nonneg : 0 ≤ value.toInt) (filled : intDigits digits base value = some tmp) :
    Reads base tmp value.toNat := by
  have same : intDigits digits base value = uintDigits digits base value := by
    unfold intDigits uintDigits
    split
    · rfl
    · next nonzero =>
      have other : value.toInt ≠ 0 := fun zero => nonzero (BitVec.eq_of_toInt_eq zero)
      rw [if_pos]
      exact BitVec.slt_iff_toInt_lt.mpr (lt_of_le_of_ne nonneg (Ne.symm other))
  exact uintDigits_reads readable large (same ▸ filled)

end

theorem signOf_of_reads (reads : Reads base tmp number) : signOf tmp.reverse = (1, 0) := by
  obtain ⟨c, rest, shape⟩ := List.exists_cons_of_ne_nil (List.reverse_ne_nil_iff.mpr reads.nonempty)
  have digit := reads.valid c (List.mem_reverse.mp (shape ▸ List.mem_cons_self))
  rw [isValidDigitForChar_eq] at digit
  rw [shape, signOf, if_neg, if_neg]
  · rintro rfl
    cases digit
  · rintro rfl
    cases digit

/-- What is read from digits behind a sign, or without one. A number in base 16 has no `x`. -/
theorem reading_of_reads (reads : Reads base tmp number) (known : base = 10 ∨ base = 16)
    (signed : text.drop (signOf text).2 = tmp.reverse) :
    reading base text = ((signOf text).1 * number, (signOf text).2 + tmp.length) := by
  have valid : ∀ c ∈ tmp.reverse, isDigitIn base c := by
    intro c member
    rw [← isValidDigitForChar_eq]
    exact reads.valid c (List.mem_reverse.mp member)
  have bare : eatenPrefix base tmp.reverse = (base, 0) := by
    rw [eatenPrefix, if_neg (by omega), if_neg, if_neg (by omega)]
    rintro ⟨hex, begins⟩
    obtain rfl : base = 16 := by omega
    exact absurd (valid (ascii 'x') (begins.subset (by decide))) (by decide)
  have nonempty : tmp.reverse ≠ [] := List.reverse_ne_nil_iff.mpr reads.nonempty
  simp only [reading, signed, bare, readDigits, Nat.add_zero, List.takeWhile_eq_self_iff.mpr valid, if_neg nonempty]
  rw [valueOf, List.reverse_reverse, ← funext digitValue_eq, reads.value, List.length_reverse]

/-- The conversions of numbers. -/
inductive Conversion where
  | d
  | u
  | x
  | X
  deriving DecidableEq, Repr

namespace Conversion

def format : Conversion → List UInt8
  | d => literal ['%', 'd']
  | u => literal ['%', 'u']
  | x => literal ['%', 'x']
  | X => literal ['%', 'X']

def base : Conversion → Nat
  | d | u => 10
  | x | X => 16

/-- The number that the argument is. -/
def number : Conversion → BitVec 32 → Int
  | d, value => value.toInt
  | _, value => value.toNat

def text : Conversion → BitVec 32 → List UInt8
  | d, value => intText value
  | u, value => uintText 10 digitsLower value
  | x, value => uintText 16 digitsLower value
  | X, value => uintText 16 digitsUpper value

end Conversion

/-- Once the buffer is large enough, the string in it is read as the number, up to its terminator. -/
def RoundTrips (arch : Arch) (memory : Memory) (buf : Nat) (conversion : Conversion) (value : BitVec 32) : Prop :=
  ∃ enough, ∀ size, enough ≤ size → ∃ count final text,
    vsnprintf arch memory buf size (some conversion.format) [.int value] = some (count, final) ∧
      HoldsString final buf text ∧ ∀ fuel, text.length < fuel → ∃ result,
        strtol arch fuel final buf conversion.base = some (result, some (buf + text.length)) ∧
          result.toInt = conversion.number value

theorem visible_text (conversion : Conversion) (value : BitVec 32) :
    ∀ c ∈ conversion.text value, visible c := by
  cases conversion with
  | d => exact visible_intText value
  | u => exact visible_uintText (by decide) (by decide) visible_digitsLower value
  | x => exact visible_uintText (by decide) (by decide) visible_digitsLower value
  | X => exact visible_uintText (by decide) (by decide) visible_digitsUpper value

theorem holdsString_text (memory : Memory) (buf : Nat) (conversion : Conversion) (value : BitVec 32) :
    HoldsString (poke memory buf (conversion.text value ++ [0])) buf (conversion.text value) := by
  apply holdsString_poke
  intro zero
  exact absurd (visible_text conversion value 0 zero) (by decide)

theorem toInt_ofInt_long (arch : Arch) (low : -2 ^ (arch.bits - 1) ≤ number) (high : number < 2 ^ (arch.bits - 1)) :
    (BitVec.ofInt arch.bits number).toInt = number := by
  apply BitVec.toInt_ofInt_eq_self _ low high
  cases arch <;> decide

theorem toInt_of_nonneg {value : BitVec 32} (nonneg : 0 ≤ value.toInt) : value.toInt = value.toNat := by
  have small := value.isLt
  rw [BitVec.toInt_eq_toNat_cond] at nonneg ⊢
  split at nonneg
  case isTrue low => rw [if_pos low]
  case isFalse => omega

section
variable (arch : Arch) (memory : Memory) (buffer : buf ≠ 0)
include arch memory buffer

section
variable (conversion : Conversion) (value : BitVec 32)

theorem vsnprintf_prints (enough : (conversion.text value).length < size) :
    ∃ count, vsnprintf arch memory buf size (some conversion.format) [.int value] =
      some (count, poke memory buf (conversion.text value ++ [0])) := by
  have shown : (conversion.text value).filter visible = conversion.text value :=
    List.filter_eq_self.mpr (visible_text conversion value)
  have whole : received (size - 1) [plain (conversion.text value)] = conversion.text value := by
    simp only [received, plain, shown, List.append_nil, Nat.sub_zero]
    exact List.take_of_length_le (by omega)
  have positive : 1 ≤ size := Nat.one_le_of_lt enough
  have scripted : script arch false conversion.format [.int value] = some [plain (conversion.text value)] := by
    cases conversion <;> rfl
  have call := vsnprintf_eq scripted memory buffer positive
  rw [whole] at call
  exact ⟨_, call⟩

/-- The number is read back if the text is read as it. -/
theorem roundTrips_of_reading (reads : reading conversion.base (conversion.text value) =
    (conversion.number value, (conversion.text value).length))
    (fits : conversion.number value < 2 ^ (arch.bits - 1)) : RoundTrips arch memory buf conversion value := by
  refine ⟨(conversion.text value).length + 1, ?_⟩
  intro size enough
  obtain ⟨count, call⟩ := vsnprintf_prints arch memory buffer conversion value enough
  have holds := holdsString_text memory buf conversion value
  refine ⟨count, _, _, call, holds, ?_⟩
  intro fuel more
  have known : conversion.base < 35 := by cases conversion <;> decide
  have parses := strtol_eq_reading arch holds buffer known more
  rw [reads] at parses
  have wide : (2 : Int) ^ 31 ≤ 2 ^ (arch.bits - 1) := by cases arch <;> decide
  have above : -2 ^ 31 ≤ conversion.number value := by
    have low : -2 ^ 31 ≤ value.toInt := value.le_toInt
    cases conversion <;> simp only [Conversion.number] <;> omega
  exact ⟨_, parses, toInt_ofInt_long arch (by omega) fits⟩

theorem unsigned_roundTrips (text : conversion.text value = tmp.reverse) (reads : Reads conversion.base tmp number)
    (same : conversion.number value = number) (fits : conversion.number value < 2 ^ (arch.bits - 1)) :
    RoundTrips arch memory buf conversion value := by
  have known : conversion.base = 10 ∨ conversion.base = 16 := by cases conversion <;> decide
  have sign := signOf_of_reads reads
  have read := reading_of_reads reads known (show tmp.reverse.drop (signOf tmp.reverse).2 = _ by rw [sign]; rfl)
  refine roundTrips_of_reading arch memory buffer conversion value ?_ fits
  rw [text, read, sign, same, one_mul, zero_add, List.length_reverse]

theorem uint_roundTrips (readable : Readable digits conversion.base) (table : conversion.base ≤ digits.length)
    (text : conversion.text value = uintText conversion.base digits value)
    (same : conversion.number value = value.toNat)
    (fits : conversion.number value < 2 ^ (arch.bits - 1)) :
    RoundTrips arch memory buf conversion value := by
  have large : 10 ≤ conversion.base := by cases conversion <;> decide
  obtain ⟨tmp, filled⟩ := uintDigits_some large table value
  rw [uintText, filled, Option.getD_some] at text
  exact unsigned_roundTrips arch memory buffer conversion value text
    (uintDigits_reads readable (by omega) filled) same fits

end

/-- Of the smallest `int` only the sign is printed. -/
theorem intMin_lost : ¬ RoundTrips arch memory buf .d 0x80000000 := by
  rintro ⟨enough, trips⟩
  have printed : Conversion.text .d 0x80000000 = [ascii '-'] := rfl
  obtain ⟨count, final, text, call, holds, parses⟩ := trips (max enough 2) (Nat.le_max_left _ _)
  have large : (Conversion.text .d 0x80000000).length < max enough 2 := by
    rw [printed, List.length_singleton]
    omega
  obtain ⟨_, prints⟩ := vsnprintf_prints arch memory buffer .d 0x80000000 large
  rw [prints] at call
  obtain ⟨-, rfl⟩ := Prod.mk.inj (Option.some.inj call)
  have held := holdsString_text memory buf .d 0x80000000
  obtain rfl := holds.unique held
  rw [printed] at parses held
  obtain ⟨result, parsed, -⟩ := parses 2 (by decide)
  rw [strtol_eq_reading arch held buffer (by decide) (by decide)] at parsed
  have unread : (reading 10 [ascii '-']).2 = 0 := by decide
  simp only [Conversion.base, unread, Option.some.injEq, Prod.mk.injEq, List.length_singleton] at parsed
  omega

theorem negative_roundTrips (value : BitVec 32) (negative : value.slt 0)
    (other : value ≠ 0x80000000) : RoundTrips arch memory buf .d value := by
  obtain ⟨tmp, filled⟩ := @intDigits_some 10 digitsLower (by decide) (by decide) (-value)
  have text : Conversion.text .d value = [ascii '-'] ++ tmp.reverse := by
    rw [Conversion.text, intText, if_pos negative, if_pos negative, filled, Option.getD_some]
  have below : value.toInt < 0 := BitVec.slt_iff_toInt_lt.mp negative
  have above : -2 ^ 31 ≤ value.toInt := value.le_toInt
  have magnitude : (-value).toInt = -value.toInt := BitVec.toInt_neg_of_ne_intMin other
  have nonneg : 0 ≤ (-value).toInt := by omega
  have reads : Reads 10 tmp (-value).toNat := intDigits_reads readable_decimal (by decide) nonneg filled
  have same : ((-value).toNat : Int) = -value.toInt := (toInt_of_nonneg nonneg).symm.trans magnitude
  have sign : signOf (Conversion.text .d value) = (-1, 1) := by
    rw [text]
    rfl
  have read := reading_of_reads reads (.inl rfl)
    (show (Conversion.text .d value).drop (signOf _).2 = _ by rw [sign, text]; rfl)
  have wide : (2 : Int) ^ 31 ≤ 2 ^ (arch.bits - 1) := by cases arch <;> decide
  refine roundTrips_of_reading arch memory buffer .d value (read.trans ?_) (show value.toInt < _ by omega)
  rw [sign, same, neg_mul_neg, one_mul, text, List.length_append, List.length_reverse]
  rfl

end

/-- Numbers that fit in a `long` are read back, except the smallest `int`. -/
theorem strtol_vsnprintf_iff (arch : Arch) (memory : Memory) (buffer : buf ≠ 0) (conversion : Conversion)
    (value : BitVec 32) (fits : conversion.number value < 2 ^ (arch.bits - 1)) :
    RoundTrips arch memory buf conversion value ↔ ¬ (conversion = .d ∧ value = 0x80000000) := by
  constructor
  · rintro trips ⟨rfl, rfl⟩
    exact intMin_lost arch memory buffer trips
  · intro other
    cases conversion with
    | d =>
      by_cases negative : value.slt 0
      · exact negative_roundTrips arch memory buffer value negative fun smallest => other ⟨rfl, smallest⟩
      · obtain ⟨tmp, filled⟩ := @intDigits_some 10 digitsLower (by decide) (by decide) value
        have text : Conversion.text .d value = tmp.reverse := by
          rw [Conversion.text, intText, if_neg negative, if_neg negative, filled, Option.getD_some, List.nil_append]
        have nonneg : 0 ≤ value.toInt :=
          Int.not_lt.mp fun below => negative (BitVec.slt_iff_toInt_lt.mpr below)
        exact unsigned_roundTrips arch memory buffer .d value text
          (intDigits_reads readable_decimal (by decide) nonneg filled) (toInt_of_nonneg nonneg) fits
    | u => exact uint_roundTrips arch memory buffer .u value readable_decimal (by decide) rfl rfl fits
    | x => exact uint_roundTrips arch memory buffer .x value (by unfold Readable; decide) (by decide) rfl rfl fits
    | X => exact uint_roundTrips arch memory buffer .X value (by unfold Readable; decide) (by decide) rfl rfl fits

theorem strtol_vsnprintf_sample : RoundTrips .i386 (fun _ => 255) 4096 .d 0x80000001 :=
  (strtol_vsnprintf_iff .i386 (fun _ => 255) (by decide) .d 0x80000001 (by decide)).mpr (by decide)

/-- `INT_MIN` is printed as a lone sign, which is read as zero without any digit. -/
theorem smallest_int_lost : ¬ RoundTrips .x86_64 (fun _ => 255) 4096 .d 0x80000000 :=
  intMin_lost .x86_64 (fun _ => 255) (by decide)

end FlapjackOS.Strtol
