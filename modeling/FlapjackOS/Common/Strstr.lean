import FlapjackOS.Common.Truncation
import Mathlib.Data.Nat.Choose.Sum

namespace FlapjackOS.CString

open Machine Stdio

variable {memory : Memory} {haystack needle : Nat} {text word : List UInt8}

section
variable (memory : Memory)

/-- `strstr`. The address zero is the null pointer, and `none` stands for a search that goes on. -/
def strstr : Nat → Nat → Nat → Option Nat
  | 0, _, _ => none
  | fuel + 1, haystack, needle =>
    if memory needle = 0 then some haystack
    else if memory haystack = 0 then some 0
    else if memory haystack = memory needle then do
      let found ← strstr fuel (haystack + 1) (needle + 1)
      if found = haystack + 1 then return haystack
      strstr fuel (haystack + 1) needle
    else strstr fuel (haystack + 1) needle

/-- `strstr` with the number of calls it makes to itself. -/
def strstrCounting : Nat → Nat → Nat → Option (Nat × Nat)
  | 0, _, _ => none
  | fuel + 1, haystack, needle =>
    if memory needle = 0 then some (haystack, 0)
    else if memory haystack = 0 then some (0, 0)
    else if memory haystack = memory needle then do
      let (found, calls) ← strstrCounting fuel (haystack + 1) (needle + 1)
      if found = haystack + 1 then return (haystack, 1 + calls)
      let (found, others) ← strstrCounting fuel (haystack + 1) needle
      return (found, 1 + calls + (1 + others))
    else do
      let (found, calls) ← strstrCounting fuel (haystack + 1) needle
      return (found, 1 + calls)

end

/-- The word stands at this place in the text, and at none before it. -/
def FirstAt (word text : List UInt8) (i : Nat) : Prop :=
  word <+: text.drop i ∧ ∀ j, j < i → ¬ word <+: text.drop j

/-- The pointer that a search in a text at this address is to return. -/
inductive Finds (haystack : Nat) (word text : List UInt8) : Nat → Prop
  | first (place : FirstAt word text i) : Finds haystack word text (haystack + i)
  | nowhere (missing : ∀ i, ¬ word <+: text.drop i) : Finds haystack word text 0

/-- The pointer comparison of the search is a prefix test. -/
theorem Finds.eq_iff (finds : Finds (haystack + 1) word text found) :
    found = haystack + 1 ↔ word <+: text := by
  cases finds with
  | @first i place =>
    constructor
    · intro same
      obtain rfl : i = 0 := by omega
      exact place.1
    · intro begins
      have here : i = 0 := by
        by_contra later
        exact place.2 0 (Nat.pos_of_ne_zero later) begins
      rw [here]
  | nowhere missing => exact iff_of_false (by omega) (missing 0)

theorem Finds.of_tail (elsewhere : ¬ word <+: c :: text) (finds : Finds (haystack + 1) word text found) :
    Finds haystack word (c :: text) found := by
  cases finds with
  | @first i place =>
    rw [Nat.add_right_comm, Nat.add_assoc]
    refine .first ⟨place.1, fun j before => ?_⟩
    cases j with
    | zero => exact elsewhere
    | succ j => exact place.2 j (by omega)
  | nowhere missing =>
    refine .nowhere fun i => ?_
    cases i with
    | zero => exact elsewhere
    | succ i => exact missing i

theorem Finds.here (begins : word <+: text) : Finds haystack word text haystack :=
  .first ⟨begins, fun j before => absurd before (Nat.not_lt_zero j)⟩

theorem strstr_finds (within : HoldsString memory haystack text) (sought : HoldsString memory needle word)
    (enough : text.length < fuel) :
    ∃ found, strstr memory fuel haystack needle = some found ∧ Finds haystack word text found := by
  induction fuel generalizing haystack needle text word with
  | zero => omega
  | succ fuel ih =>
    rw [strstr]
    by_cases matched : memory needle = 0
    · rw [if_pos matched, sought.eq_nil matched]
      exact ⟨haystack, rfl, .here List.nil_prefix⟩
    · obtain ⟨word, rfl, sought'⟩ := sought.eq_cons matched
      rw [if_neg matched]
      by_cases ended : memory haystack = 0
      · rw [if_pos ended, within.eq_nil ended]
        refine ⟨0, rfl, .nowhere fun i => ?_⟩
        simp
      · obtain ⟨text, rfl, rest⟩ := within.eq_cons ended
        rw [if_neg ended]
        have shorter : text.length < fuel := Nat.lt_of_succ_lt_succ enough
        obtain ⟨other, later, finds⟩ := ih rest sought shorter
        by_cases same : memory haystack = memory needle
        · obtain ⟨found, returned, begins⟩ := ih rest sought' shorter
          rw [if_pos same, returned]
          simp only [Option.bind_eq_bind, Option.bind_some]
          by_cases here : found = haystack + 1
          · rw [if_pos here]
            refine ⟨haystack, rfl, .here ?_⟩
            rw [same, List.prefix_cons_inj]
            exact begins.eq_iff.mp here
          · rw [if_neg here]
            refine ⟨other, later, finds.of_tail ?_⟩
            rw [same, List.prefix_cons_inj]
            exact fun whole => here (begins.eq_iff.mpr whole)
        · rw [if_neg same]
          refine ⟨other, later, finds.of_tail ?_⟩
          rw [List.cons_prefix_cons]
          exact fun whole => same whole.1.symm

/-- The search ends, at the first occurrence or with a null pointer. -/
theorem strstr_first_occurrence (within : HoldsString memory haystack text)
    (sought : HoldsString memory needle word) (enough : text.length < fuel) :
    (word = [] → strstr memory fuel haystack needle = some haystack) ∧
      ((∃ i, FirstAt word text i ∧ strstr memory fuel haystack needle = some (haystack + i)) ∨
        ((∀ i, ¬ word <+: text.drop i) ∧ strstr memory fuel haystack needle = some 0)) := by
  obtain ⟨found, returned, finds⟩ := strstr_finds within sought enough
  constructor
  · intro empty
    cases finds with
    | @first i place =>
      have here : i = 0 := by
        by_contra later
        exact place.2 0 (Nat.pos_of_ne_zero later) (empty ▸ List.nil_prefix)
      rw [returned, here, Nat.add_zero]
    | nowhere missing => exact absurd (empty ▸ List.nil_prefix) (missing 0)
  · cases finds with
    | @first i place => exact .inl ⟨i, place, returned⟩
    | nowhere missing => exact .inr ⟨missing, returned⟩

/-- "aaab", "aab" and "aaaaa" -/
def sampleStrings : Memory :=
  poke (poke (poke (fun _ => 0) 100 [97, 97, 97, 98, 0]) 200 [97, 97, 98, 0]) 300 [97, 97, 97, 97, 97, 0]

theorem strstr_first_occurrence_sample :
    (∃ i, FirstAt [97, 97, 98] [97, 97, 97, 98] i ∧ strstr sampleStrings 5 100 200 = some (100 + i)) ∨
      ((∀ i, ¬ [97, 97, 98] <+: List.drop i [(97 : UInt8), 97, 97, 98]) ∧
        strstr sampleStrings 5 100 200 = some 0) :=
  (strstr_first_occurrence ⟨by decide, rfl, by decide⟩ ⟨by decide, rfl, by decide⟩ (by decide)).2

example : strstr sampleStrings 5 100 200 = some 101 := by decide

theorem strstrCounting_fst (memory : Memory) (fuel haystack needle : Nat) :
    (strstrCounting memory fuel haystack needle).map Prod.fst = strstr memory fuel haystack needle := by
  induction fuel generalizing haystack needle with
  | zero => rfl
  | succ fuel ih =>
    rw [strstrCounting, strstr, ← ih (haystack + 1) (needle + 1), ← ih (haystack + 1) needle]
    split_ifs with matched ended same
    · rfl
    · rfl
    · cases strstrCounting memory fuel (haystack + 1) (needle + 1) with
      | none => rfl
      | some first =>
        simp only [Option.bind_eq_bind, Option.bind_some, Option.map_some]
        split_ifs with here
        · rfl
        · cases strstrCounting memory fuel (haystack + 1) needle with
          | none => rfl
          | some second => rfl
    · cases strstrCounting memory fuel (haystack + 1) needle with
      | none => rfl
      | some later => rfl

/-- All calls of a search with `n` characters left of the needle and `h` of the haystack,
in the worst case. -/
def worstCalls (h n : Nat) : Nat := ∑ k ∈ Finset.range n, (h + 1).choose (k + 1)

theorem worstCalls_succ (h n : Nat) : worstCalls (h + 1) (n + 1) = 1 + worstCalls h n + worstCalls h (n + 1) := by
  simp only [worstCalls, Nat.choose_succ_succ' (h + 1), Finset.sum_add_distrib]
  rw [Finset.sum_range_succ' (fun k => (h + 1).choose k), Nat.choose_zero_right, Nat.add_comm 1]

theorem worstCalls_one (h : Nat) : worstCalls h 1 = h + 1 := by
  simp [worstCalls]

theorem worstCalls_pos (h n : Nat) : 0 < worstCalls h (n + 1) := by
  rw [worstCalls, Finset.sum_range_succ']
  have first : (h + 1).choose (0 + 1) = h + 1 := Nat.choose_one_right _
  omega

theorem worstCalls_zero (n : Nat) : worstCalls 0 (n + 1) - 1 = 0 := by
  induction n with
  | zero => simp [worstCalls_one]
  | succ n ih =>
    rw [worstCalls, Finset.sum_range_succ, ← worstCalls, Nat.choose_eq_zero_of_lt (by omega)]
    exact ih

theorem strstrCounting_matched (matched : memory needle = 0)
    (returned : strstrCounting memory fuel haystack needle = some (found, calls)) : found = haystack := by
  cases fuel with
  | zero => cases returned
  | succ fuel =>
    rw [strstrCounting, if_pos matched] at returned
    cases returned
    rfl

/-- The call itself is counted on the left. -/
theorem strstrCounting_le (within : HoldsString memory haystack text) (sought : HoldsString memory needle word)
    (enough : text.length < fuel) :
    ∃ found calls, strstrCounting memory fuel haystack needle = some (found, calls) ∧
      calls + 1 ≤ max 1 (worstCalls text.length word.length) := by
  induction fuel generalizing haystack needle text word with
  | zero => omega
  | succ fuel ih =>
    rw [strstrCounting]
    split_ifs with matched ended same
    · exact ⟨haystack, 0, rfl, le_max_left _ _⟩
    · exact ⟨0, 0, rfl, le_max_left _ _⟩
    · obtain ⟨text, rfl, rest⟩ := within.eq_cons ended
      obtain ⟨word, rfl, sought'⟩ := sought.eq_cons matched
      have shorter : text.length < fuel := Nat.lt_of_succ_lt_succ enough
      obtain ⟨found, calls, returned, bound⟩ := ih rest sought' shorter
      obtain ⟨other, others, later, limit⟩ := ih rest sought shorter
      have recurrence := worstCalls_succ text.length word.length
      have positive := worstCalls_pos text.length word.length
      simp only [returned, later, Option.bind_eq_bind, Option.bind_some, List.length_cons] at limit ⊢
      split_ifs with here
      · exact ⟨haystack, 1 + calls, rfl, by omega⟩
      · -- a needle that is used up would have been found
        cases word with
        | nil => exact absurd (strstrCounting_matched sought'.terminated returned) here
        | cons c word =>
          have both := worstCalls_pos text.length word.length
          simp only [List.length_cons] at bound limit recurrence positive ⊢
          exact ⟨other, 1 + calls + (1 + others), rfl, by omega⟩
    · obtain ⟨text, rfl, rest⟩ := within.eq_cons ended
      obtain ⟨word, rfl, -⟩ := sought.eq_cons matched
      obtain ⟨other, others, later, limit⟩ := ih rest sought (Nat.lt_of_succ_lt_succ enough)
      refine ⟨other, 1 + others, by rw [later]; rfl, ?_⟩
      have recurrence := worstCalls_succ text.length word.length
      have positive := worstCalls_pos text.length word.length
      simp only [List.length_cons] at limit ⊢
      omega

theorem needle_left (sought : HoldsString memory needle (front ++ [b])) : memory needle ≠ 0 := by
  intro ended
  exact absurd (sought.eq_nil ended) (by simp)

/-- A needle whose last character is missing from the haystack takes all the calls there can be. -/
theorem strstrCounting_worst (within : HoldsString memory haystack (List.replicate h a))
    (sought : HoldsString memory needle (List.replicate m a ++ [b])) (different : a ≠ b) (enough : h < fuel) :
    strstrCounting memory fuel haystack needle = some (0, worstCalls h (m + 1) - 1) := by
  induction h generalizing haystack needle m fuel with
  | zero =>
    obtain ⟨fuel, rfl⟩ := Nat.exists_eq_succ_of_ne_zero (Nat.ne_zero_of_lt enough)
    have ended : memory haystack = 0 := within.terminated
    rw [strstrCounting, if_neg (needle_left sought), if_pos ended, worstCalls_zero]
  | succ h ih =>
    obtain ⟨fuel, rfl⟩ := Nat.exists_eq_succ_of_ne_zero (Nat.ne_zero_of_lt enough)
    rw [List.replicate_succ] at within
    obtain ⟨here, rest⟩ := within.tail
    have more : memory haystack ≠ 0 := fun ended => nomatch within.eq_nil ended
    have later := ih rest sought (Nat.lt_of_succ_lt_succ enough)
    rw [strstrCounting, if_neg (needle_left sought), if_neg more, later]
    cases m with
    | zero =>
      have last : memory needle = b := sought.tail.1
      rw [if_neg (by rwa [here, last]), worstCalls_one, worstCalls_one, Nat.add_sub_cancel, Nat.add_sub_cancel,
        Nat.add_comm h 1]
      rfl
    | succ m =>
      rw [List.replicate_succ, List.cons_append] at sought
      obtain ⟨same, sought⟩ := sought.tail
      have deeper := ih rest sought (Nat.lt_of_succ_lt_succ enough)
      have elsewhere : ¬ 0 = haystack + 1 := Nat.succ_ne_zero haystack ∘ Eq.symm
      have recurrence := worstCalls_succ h (m + 1)
      have positive := worstCalls_pos h m
      have both := worstCalls_pos h (m + 1)
      rw [if_pos (by rw [here, same]), deeper]
      simp only [Option.bind_eq_bind, Option.bind_some, elsewhere, ↓reduceIte, Option.pure_def,
        Option.some.injEq, Prod.mk.injEq, true_and]
      omega

/-- Two strings behind each other. -/
def pokeBoth (text word : List UInt8) : Memory :=
  poke (poke (fun _ => 0) 1 (text ++ [0])) (text.length + 2) (word ++ [0])

theorem pokeBoth_holds (nonzero : 0 ∉ text) (proper : 0 ∉ word) :
    HoldsString (pokeBoth text word) 1 text ∧ HoldsString (pokeBoth text word) (text.length + 2) word := by
  have kept : ∀ x, x < text.length + 2 →
      pokeBoth text word x = poke (fun _ => 0) 1 (text ++ [0]) x :=
    fun x below => poke_outside (.inl below)
  obtain ⟨chars, terminated, -⟩ := @holdsString_poke text (fun _ => 0) 1 nonzero
  refine ⟨⟨fun i inside => ?_, ?_, nonzero⟩, holdsString_poke proper⟩
  · rw [kept (1 + i) (by omega)]
    exact chars i inside
  · rw [kept (1 + text.length) (by omega)]
    exact terminated

/-- No search takes more calls than these, and for all lengths there is one that takes them. -/
theorem strstr_calls_sharp (h n : Nat) :
    (∀ memory haystack needle text word fuel, HoldsString memory haystack text →
      HoldsString memory needle word → text.length = h → word.length = n → h < fuel →
      ∃ found calls, strstr memory fuel haystack needle = some found ∧
        strstrCounting memory fuel haystack needle = some (found, calls) ∧ calls ≤ worstCalls h n - 1) ∧
    ∃ memory haystack needle text word, HoldsString memory haystack text ∧ HoldsString memory needle word ∧
      text.length = h ∧ word.length = n ∧ ∀ fuel, h < fuel → ∃ found,
        strstrCounting memory fuel haystack needle = some (found, worstCalls h n - 1) := by
  constructor
  · rintro memory haystack needle text word fuel within sought rfl rfl enough
    obtain ⟨found, calls, returned, bound⟩ := strstrCounting_le within sought enough
    refine ⟨found, calls, ?_, returned, by omega⟩
    rw [← strstrCounting_fst, returned]
    rfl
  · cases n with
    | zero =>
      obtain ⟨within, sought⟩ := @pokeBoth_holds (List.replicate h 97) [] (by simp [List.mem_replicate]) (by simp)
      refine ⟨_, _, _, _, [], within, sought, List.length_replicate, rfl, fun fuel enough => ⟨1, ?_⟩⟩
      obtain ⟨fuel, rfl⟩ := Nat.exists_eq_succ_of_ne_zero (Nat.ne_zero_of_lt enough)
      have matched := sought.head
      rw [List.headD_nil] at matched
      rw [strstrCounting, if_pos matched]
      rfl
    | succ m =>
      obtain ⟨within, sought⟩ := @pokeBoth_holds (List.replicate h 97) (List.replicate m 97 ++ [98])
        (by simp [List.mem_replicate]) (by simp [List.mem_replicate])
      refine ⟨_, _, _, _, _, within, sought, List.length_replicate, by simp, fun fuel enough => ⟨0, ?_⟩⟩
      exact strstrCounting_worst within sought (by decide) enough

theorem strstr_calls_sharp_sample :
    ∃ found calls, strstr sampleStrings 5 100 200 = some found ∧
      strstrCounting sampleStrings 5 100 200 = some (found, calls) ∧ calls ≤ worstCalls 4 3 - 1 :=
  (strstr_calls_sharp 4 3).1 sampleStrings 100 200 [97, 97, 97, 98] [97, 97, 98] 5 ⟨by decide, rfl, by decide⟩
    ⟨by decide, rfl, by decide⟩ rfl rfl (by decide)

/-- "aab" is searched for in "aaaaa" with 40 calls. -/
theorem strstr_calls_quadratic_exceeded :
    HoldsString sampleStrings 300 [97, 97, 97, 97, 97] ∧ HoldsString sampleStrings 200 [97, 97, 98] ∧
      strstrCounting sampleStrings 6 300 200 = some (0, 40) ∧ (5 + 1) * (3 + 1) < 40 :=
  ⟨⟨by decide, rfl, by decide⟩, ⟨by decide, rfl, by decide⟩, by decide, by decide⟩

end FlapjackOS.CString
