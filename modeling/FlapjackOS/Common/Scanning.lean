import FlapjackOS.Common.BitArray
import FlapjackOS.Machine.Arch
import FlapjackOS.Machine.Lists
import Mathlib.Data.BitVec
import Mathlib.Data.Nat.Find

namespace FlapjackOS.BitArray

open Bits

variable {capacity m k : Nat} {array : BitArray capacity} {on : Bool}

section
variable (array : BitArray capacity)

/-- `NOT_FOUND`, as an `int`. -/
def notFound : BitVec 32 := -1

/-- `get_words()[i]`, with the lowest byte first. -/
def getWord (i : Nat) : BitVec 32 :=
  array.storage (4 * i + 3) ++ array.storage (4 * i + 2) ++ array.storage (4 * i + 1) ++ array.storage (4 * i)

/-- Only words that lie in the array as a whole are counted. -/
def getNumberOfWords (capacity : Nat) : Nat := capacity / 32

def matchingWordLoop (desired : Bool) : Nat → Nat → BitVec 32
  | 0, _ => notFound
  | n + 1, i =>
    if (array.getWord i == 0) == desired then BitVec.ofNat 32 (i * 32)
    else matchingWordLoop desired n (i + 1)

/-- The index becomes an `int`. -/
def scanForwardsToFindBitIndexOfMatchingWord (desired : Bool) : BitVec 32 :=
  matchingWordLoop array desired (getNumberOfWords capacity) 0

def slowForwardLoop (desired : Bool) : Nat → Nat → Option (BitVec 32)
  | 0, _ => some notFound
  | n + 1, i => do
    if (← array.test i) = desired then return BitVec.ofNat 32 i
    slowForwardLoop desired n (i + 1)

def slowScanForward (start : Nat) (desired : Bool) : Option (BitVec 32) :=
  slowForwardLoop array desired (capacity - start) start

/-- An `int` that becomes a `size_t`. -/
def sizeOfInt (arch : Arch) (value : BitVec 32) : Nat := (value.signExtend arch.bits).toNat

def scanForward (arch : Arch) (desired : Bool) : Option (BitVec 32) :=
  let start := scanForwardsToFindBitIndexOfMatchingWord array desired
  if start = notFound then some notFound
  else slowScanForward array (sizeOfInt arch start) desired

/-- The loop from `i - 1` down to zero. -/
def slowBackwardLoop (desired : Bool) : Nat → Option (BitVec 32)
  | 0 => some notFound
  | i + 1 => do
    if (← array.test i) = desired then return BitVec.ofNat 32 i
    slowBackwardLoop desired i

/-- The first index becomes an `int`; the loop is left at once if that is negative. -/
def slowScanBackward (start : Nat) (desired : Bool) : Option (BitVec 32) :=
  slowBackwardLoop array desired ((BitVec.ofNat 32 start).toInt + 1).toNat

def scanBackward (desired : Bool) : Option (BitVec 32) := slowScanBackward array (capacity - 1) desired

end

theorem test_eq_some_iff : array.test i = some on ↔ i < capacity ∧ array.bit i = on := by
  by_cases inside : i < capacity
  · rw [test_of_lt inside, Option.some.injEq, and_iff_right inside]
  · rw [test_eq_none (Nat.not_lt.mp inside)]
    exact iff_of_false (by simp) (fun both => inside both.1)

section
variable (array : BitArray capacity)

theorem getLsbD_getWord (w : Nat) (inside : j < 32) :
    (array.getWord w).getLsbD j = array.bit (32 * w + j) := by
  have place : (32 * w + j) / 8 = 4 * w + j / 8 ∧ (32 * w + j) % 8 = j % 8 := by omega
  rw [bit, place.1, place.2, testFlag_eq (Nat.mod_lt _ (by decide)), getWord, BitVec.getLsbD_append,
    BitVec.getLsbD_append, BitVec.getLsbD_append]
  split_ifs with first second third
  · rw [Nat.div_eq_of_lt first, Nat.mod_eq_of_lt first]
    rfl
  · congr 2 <;> omega
  · congr 2 <;> omega
  · congr 2 <;> omega

theorem getWord_eq_zero_iff (w : Nat) :
    array.getWord w = 0 ↔ ∀ j, j < 32 → array.bit (32 * w + j) = false := by
  constructor
  · intro zero j inside
    rw [← getLsbD_getWord array w inside, zero]
    exact BitVec.getLsbD_zero
  · intro clear
    apply BitVec.eq_of_getLsbD_eq
    intro j inside
    rw [getLsbD_getWord array w inside, clear j inside]
    exact BitVec.getLsbD_zero.symm

/-- The words that the forward scan begins at: zero if it looks for a one. -/
def accepts (desired : Bool) (w : Nat) : Bool := (array.getWord w == 0) == desired

def firstWord (desired : Bool) : Option Nat :=
  (List.range' 0 (getNumberOfWords capacity)).find? (array.accepts desired)

def firstBit (desired : Bool) (start : Nat) : Option Nat :=
  (List.range' start (capacity - start)).find? fun k => array.bit k == desired

end

/-- A first word that the scan passes over has a bit with the value. -/
theorem bit_of_not_accepts (passed : array.accepts on 0 = false) : ∃ j, j < 32 ∧ array.bit j = on := by
  cases on with
  | true =>
    have nonzero : ¬ array.getWord 0 = 0 := by simpa [accepts] using passed
    rw [getWord_eq_zero_iff] at nonzero
    push Not at nonzero
    obtain ⟨j, inside, set⟩ := nonzero
    exact ⟨j, inside, by simpa using set⟩
  | false =>
    have zero : array.getWord 0 = 0 := by simpa [accepts] using passed
    exact ⟨0, by decide, (getWord_eq_zero_iff array 0).mp zero 0 (by decide)⟩

theorem matchingWordLoop_eq (array : BitArray capacity) (on : Bool) (n i : Nat) :
    matchingWordLoop array on n i =
      ((List.range' i n).find? (array.accepts on)).elim notFound (fun w => BitVec.ofNat 32 (w * 32)) := by
  induction n generalizing i with
  | zero => rfl
  | succ n ih =>
    rw [matchingWordLoop, List.range'_succ, List.find?_cons, ← accepts]
    cases array.accepts on i with
    | true => rfl
    | false => exact ih (i + 1)

theorem slowForwardLoop_eq (on : Bool) (inside : ∀ j, i ≤ j → j < i + n → j < capacity) :
    slowForwardLoop array on n i =
      some (((List.range' i n).find? (fun k => array.bit k == on)).elim notFound (BitVec.ofNat 32)) := by
  induction n generalizing i with
  | zero => rfl
  | succ n ih =>
    rw [slowForwardLoop, test_of_lt (inside i (by omega) (by omega)), List.range'_succ, List.find?_cons]
    by_cases here : array.bit i = on
    · simp [here]
    · have other : (array.bit i == on) = false := by simpa using here
      simp only [Option.bind_eq_bind, Option.bind_some, here, other, if_false]
      exact ih (fun j above below => inside j (by omega) (by omega))

/-- The last bit with the value below `n` is found. -/
theorem slowBackwardLoop_cases (array : BitArray capacity) (on : Bool) (inside : n ≤ capacity) :
    (∃ k, k < n ∧ array.bit k = on ∧ (∀ j, k < j → j < n → array.bit j ≠ on) ∧
        slowBackwardLoop array on n = some (BitVec.ofNat 32 k)) ∨
      ((∀ j, j < n → array.bit j ≠ on) ∧ slowBackwardLoop array on n = some notFound) := by
  induction n with
  | zero => exact .inr ⟨fun j below => by omega, rfl⟩
  | succ n ih =>
    rw [slowBackwardLoop, test_of_lt (by omega)]
    simp only [Option.bind_eq_bind, Option.bind_some]
    by_cases here : array.bit n = on
    · rw [if_pos here]
      exact .inl ⟨n, by omega, here, fun j above below => by omega, rfl⟩
    · rw [if_neg here]
      rcases ih (by omega) with ⟨k, below, found, last, returned⟩ | ⟨none, returned⟩
      · refine .inl ⟨k, by omega, found, fun j above bound => ?_, returned⟩
        by_cases same : j = n
        · rwa [same]
        · exact last j above (by omega)
      · refine .inr ⟨fun j bound => ?_, returned⟩
        by_cases same : j = n
        · rwa [same]
        · exact none j (by omega)

section
variable (array : BitArray capacity) (on : Bool)

/-- The result is the index that is asked for, and `NOT_FOUND` exactly if no bit has the value. -/
structure Reports (extreme : Nat → Prop) (result : BitVec 32) : Prop where
  index : ∀ i, extreme i → result.toInt = i
  absent : result.toInt = -1 ↔ ∀ i, array.test i ≠ some on

/-- Where the bits are scanned from if `w` is the first word that is accepted. -/
def startOf (arch : Arch) (w : Nat) : Nat := sizeOfInt arch (BitVec.ofNat 32 (w * 32))

/-- The scan begins behind the first word, at an index that has been cut off to an `int`, and
reaches a bit whose index is cut off to the right one. -/
def WrapsAround (arch : Arch) (m : Nat) : Prop :=
  ∃ w k, 0 < w ∧ IsLeast {w | w < getNumberOfWords capacity ∧ array.accepts on w} w ∧
    IsLeast {i | startOf arch w ≤ i ∧ array.test i = some on} k ∧ k % 2 ^ 32 = m

/-- The first bit with the value has an index for an `int`, and the scan begins at the first word
because that is zero exactly if a one is looked for. -/
def ForwardReached (arch : Arch) : Prop :=
  ∀ m, IsLeast {i | array.test i = some on} m → m < 2 ^ 31 ∧
    ((32 ≤ capacity ∧ array.accepts on 0) ∨ array.WrapsAround on arch m)

/-- No bit with the value lies above the index that the backward scan begins at. -/
def BackwardReached : Prop :=
  ∀ i, array.test i = some on → (i : Int) ≤ (BitVec.ofNat 32 (capacity - 1)).toInt

end

theorem reports_notFound (nowhere : ∀ i, array.test i ≠ some on) (member : ∀ i, extreme i → array.test i = some on) :
    Reports array on extreme notFound :=
  ⟨fun i found => absurd (member i found) (nowhere i), iff_of_true rfl nowhere⟩

theorem reports_iff (found : extreme m) (here : array.test m = some on)
    (unique : ∀ i, extreme i → i = m) : Reports array on extreme result ↔ result.toInt = m := by
  constructor
  · intro reports
    exact reports.index m found
  · intro same
    refine ⟨fun i other => by rw [unique i other, same], iff_of_false (by omega) fun nowhere => nowhere m here⟩

theorem toInt_ofNat_eq_iff (small : m < 2 ^ 31) : (BitVec.ofNat 32 k).toInt = m ↔ k % 2 ^ 32 = m := by
  rw [BitVec.toInt_eq_toNat_cond, BitVec.toNat_ofNat]
  split_ifs <;> omega

theorem ofNat_word_ne_notFound (w : Nat) : BitVec.ofNat 32 (w * 32) ≠ notFound := by
  intro same
  have value := congrArg BitVec.toNat same
  rw [BitVec.toNat_ofNat, show notFound.toNat = 4294967295 from rfl] at value
  omega

theorem firstBit_isLeast (start : Nat) :
    array.firstBit on start = some k ↔ IsLeast {i | start ≤ i ∧ array.test i = some on} k := by
  rw [firstBit, Lists.find?_range'_isLeast]
  simp only [test_eq_some_iff, beq_iff_eq]

theorem firstWord_isLeast :
    array.firstWord on = some w ↔ IsLeast {w | w < getNumberOfWords capacity ∧ array.accepts on w} w := by
  have first := @Lists.find?_range'_isLeast (array.accepts on) 0 (getNumberOfWords capacity) w
  simpa only [firstWord, Nat.sub_zero, Nat.zero_le, true_and] using first

/-- The result of the forward scan by the word that it begins at. -/
theorem scanForward_eq (arch : Arch) (array : BitArray capacity) (on : Bool) :
    scanForward array arch on =
      match array.firstWord on with
      | none => some notFound
      | some w => some ((array.firstBit on (startOf arch w)).elim notFound (BitVec.ofNat 32)) := by
  rw [scanForward, scanForwardsToFindBitIndexOfMatchingWord, matchingWordLoop_eq, ← firstWord]
  cases array.firstWord on with
  | none => rfl
  | some w =>
    simp only [Option.elim_some, ofNat_word_ne_notFound, if_false]
    exact slowForwardLoop_eq on (fun j above below => by omega)

theorem scanForward_none (arch : Arch) (nowhere : ∀ i, array.test i ≠ some on) :
    scanForward array arch on = some notFound := by
  rw [scanForward_eq]
  split
  · rfl
  · cases found : array.firstBit on _ with
    | none => rfl
    | some k => exact absurd ((firstBit_isLeast _).mp found).1.2 (nowhere k)

theorem toInt_ofNat_self_iff : (BitVec.ofNat 32 m).toInt = m ↔ m < 2 ^ 31 := by
  constructor
  · intro same
    have bound := (BitVec.ofNat 32 m).toInt_lt
    omega
  · intro small
    exact (toInt_ofNat_eq_iff small).mpr (Nat.mod_eq_of_lt (by omega))

/-- If the first word is passed over, the first bit with the value is among its bits. -/
theorem isLeast_lt_of_word (least : IsLeast {i | array.test i = some on} m)
    (first : IsLeast {w | w < getNumberOfWords capacity ∧ array.accepts on w} w) (later : 0 < w) : m < 32 := by
  have large : w < capacity / 32 := first.1.1
  have passed : array.accepts on 0 = false := by
    by_contra accepted
    have early : w ≤ 0 := first.2 ⟨by simp only [getNumberOfWords]; omega, by simpa using accepted⟩
    omega
  obtain ⟨j, inside, found⟩ := bit_of_not_accepts passed
  have bound : m ≤ j := least.2 (test_eq_some_iff.mpr ⟨by omega, found⟩)
  omega

theorem forward_reports_iff (arch : Arch) (array : BitArray capacity) (on : Bool) :
    (∃ result, scanForward array arch on = some result ∧
        Reports array on (IsLeast {i | array.test i = some on}) result) ↔ array.ForwardReached on arch := by
  by_cases nowhere : ∀ i, array.test i ≠ some on
  · refine iff_of_true ⟨notFound, scanForward_none arch nowhere, ?_⟩ fun m least => absurd least.1 (nowhere m)
    exact reports_notFound nowhere fun i least => least.1
  · push Not at nowhere
    have least := Nat.isLeast_find nowhere
    generalize Nat.find nowhere = m at least
    have reached : array.ForwardReached on arch ↔
        m < 2 ^ 31 ∧ ((32 ≤ capacity ∧ array.accepts on 0) ∨ array.WrapsAround on arch m) :=
      ⟨fun all => all m least, fun here i other => other.unique least ▸ here⟩
    rw [reached, scanForward_eq]
    have reports : ∀ result, Reports array on (IsLeast {i | array.test i = some on}) result ↔ result.toInt = m :=
      fun result => reports_iff least least.1 fun i other => other.unique least
    cases word : array.firstWord on with
    | none =>
      have missing (w : Nat) : ¬ IsLeast {w | w < getNumberOfWords capacity ∧ array.accepts on w} w := by
        rw [← firstWord_isLeast, word]
        exact nofun
      refine iff_of_false ?_ ?_
      · rintro ⟨result, returned, right⟩
        cases returned
        exact absurd ((reports notFound).mp right) (by rw [show notFound.toInt = -1 from rfl]; omega)
      · rintro ⟨-, ⟨large, accepted⟩ | ⟨w, k, -, first, -⟩⟩
        · exact missing 0 ⟨⟨Nat.div_pos large (by decide), accepted⟩, fun w _ => Nat.zero_le w⟩
        · exact missing w first
    | some w =>
      have first := firstWord_isLeast.mp word
      simp only [Option.some.injEq, exists_eq_left', reports]
      have large : w < capacity / 32 := first.1.1
      rcases Nat.eq_zero_or_pos w with rfl | later
      · -- the scan begins at the first bit
        have found := (@firstBit_isLeast _ m array on 0).mpr (by simpa using least)
        rw [show startOf arch 0 = 0 by cases arch <;> rfl, found, Option.elim_some, toInt_ofNat_self_iff]
        exact (and_iff_left (.inl ⟨by omega, first.1.2⟩)).symm
      · have small := isLeast_lt_of_word least first later
        have passed : ¬ (32 ≤ capacity ∧ array.accepts on 0) := fun both => by
          have early : w ≤ 0 := first.2 ⟨by simp only [getNumberOfWords]; omega, both.2⟩
          omega
        rw [and_iff_right (by omega), or_iff_right passed]
        cases found : array.firstBit on (startOf arch w) with
        | none =>
          refine iff_of_false (by rw [Option.elim_none, show notFound.toInt = -1 from rfl]; omega) ?_
          rintro ⟨other, k, -, same, reached, -⟩
          rw [same.unique first] at reached
          rw [(firstBit_isLeast _).mpr reached] at found
          cases found
        | some k =>
          rw [Option.elim_some, toInt_ofNat_eq_iff (by omega)]
          constructor
          · intro wrapped
            exact ⟨w, k, later, first, (firstBit_isLeast _).mp found, wrapped⟩
          · rintro ⟨other, j, -, same, reached, wrapped⟩
            rw [same.unique first] at reached
            rwa [reached.unique ((firstBit_isLeast _).mp found)] at wrapped

theorem exists_isGreatest (somewhere : ∃ i, array.test i = some on) :
    ∃ m, IsGreatest {i | array.test i = some on} m := by
  obtain ⟨i, here⟩ := somewhere
  have inside := (test_eq_some_iff.mp here).1
  have found : array.test (Nat.findGreatest (fun i => array.test i = some on) capacity) = some on :=
    @Nat.findGreatest_spec i (fun i => array.test i = some on) _ capacity (by omega) here
  refine ⟨_, found, fun j there => ?_⟩
  have bound := (test_eq_some_iff.mp there).1
  exact Nat.le_findGreatest (by omega) there

theorem backward_reports_iff (array : BitArray capacity) (on : Bool) (positive : 0 < capacity) :
    (∃ result, scanBackward array on = some result ∧
        Reports array on (IsGreatest {i | array.test i = some on}) result) ↔ array.BackwardReached on := by
  rw [scanBackward, slowScanBackward, BackwardReached]
  have below : (BitVec.ofNat 32 (capacity - 1)).toInt ≤ (capacity - 1 : Nat) := by
    rw [BitVec.toInt_eq_toNat_cond, BitVec.toNat_ofNat]
    have cut := Nat.mod_le (capacity - 1) (2 ^ 32)
    split_ifs <;> omega
  have bounded := (BitVec.ofNat 32 (capacity - 1)).toInt_lt
  generalize (BitVec.ofNat 32 (capacity - 1)).toInt = start at below bounded
  have search := slowBackwardLoop_cases array on (show (start + 1).toNat ≤ capacity by omega)
  by_cases nowhere : ∀ i, array.test i ≠ some on
  · have returned : slowBackwardLoop array on (start + 1).toNat = some notFound := by
      rcases search with ⟨k, inside, found, -, -⟩ | ⟨-, returned⟩
      · exact absurd (test_eq_some_iff.mpr ⟨by omega, found⟩) (nowhere k)
      · exact returned
    refine iff_of_true ⟨notFound, returned, ?_⟩ fun i here => absurd here (nowhere i)
    exact reports_notFound nowhere fun i greatest => greatest.1
  · push Not at nowhere
    obtain ⟨m, greatest⟩ := exists_isGreatest nowhere
    obtain ⟨inside, here⟩ := test_eq_some_iff.mp greatest.1
    have reports : ∀ result, Reports array on (IsGreatest {i | array.test i = some on}) result ↔ result.toInt = m :=
      fun result => reports_iff greatest greatest.1 fun i other => other.unique greatest
    have reached : (∀ i, array.test i = some on → (i : Int) ≤ start) ↔ m < (start + 1).toNat := by
      constructor
      · intro all
        have last := all m greatest.1
        omega
      · intro inside i there
        have order : i ≤ m := greatest.2 there
        omega
    rw [reached]
    rcases search with ⟨k, low, found, last, returned⟩ | ⟨none, returned⟩
    · rw [returned]
      simp only [Option.some.injEq, exists_eq_left', reports]
      have order : k ≤ m := greatest.2 (test_eq_some_iff.mpr ⟨by omega, found⟩)
      have value : (BitVec.ofNat 32 k).toInt = k := toInt_ofNat_self_iff.mpr (by omega)
      rw [value]
      constructor
      · intro same
        omega
      · intro low
        by_contra other
        exact last m (by omega) low here
    · rw [returned]
      simp only [Option.some.injEq, exists_eq_left', reports]
      refine iff_of_false (by rw [show notFound.toInt = -1 from rfl]; omega) fun low => none m low here

/-- The scans are right exactly where they begin at the right place: the forward scan at the first
word, the backward scan at the last bit. -/
theorem scans_report_iff (arch : Arch) (array : BitArray capacity) (on : Bool) (positive : 0 < capacity) :
    ((∃ result, scanForward array arch on = some result ∧
        Reports array on (IsLeast {i | array.test i = some on}) result) ↔ array.ForwardReached on arch) ∧
      ((∃ result, scanBackward array on = some result ∧
        Reports array on (IsGreatest {i | array.test i = some on}) result) ↔ array.BackwardReached on) :=
  ⟨forward_reports_iff arch array on, backward_reports_iff array on positive⟩

/-- Only bit 40 is set. -/
def sampleBits : BitArray 64 where
  storage index := if index = 5 then 1 else 0

theorem scans_report_sample :
    (∃ result, scanForward sampleBits .i386 true = some result ∧
        Reports sampleBits true (IsLeast {i | sampleBits.test i = some true}) result) := by
  apply (scans_report_iff .i386 sampleBits true (by decide)).1.mpr
  intro m least
  have inside := (test_eq_some_iff.mp least.1).1
  exact ⟨by omega, .inl ⟨by decide, by decide⟩⟩

example : scanForward sampleBits .i386 true = some 40 ∧ scanBackward sampleBits true = some 40 := by decide

/-- A new array is all zeros, and the scan for a zero finds none: each word is passed over because
it is zero. -/
theorem fresh_array_has_no_zero :
    scanForward (⟨fun _ => 0⟩ : BitArray 64) .i386 false = some notFound ∧
      (⟨fun _ => 0⟩ : BitArray 64).test 0 = some false := by decide

end FlapjackOS.BitArray
