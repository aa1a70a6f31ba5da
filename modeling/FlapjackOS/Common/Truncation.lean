import FlapjackOS.Common.Stdio

/-! When `vsnprintf` into a short buffer leaves the beginning of the text it leaves in a long
one. -/

namespace FlapjackOS.Stdio

open Machine Allotment

/-- The pieces a conversion stands for, and the arguments behind the one it takes. -/
def describe (arch : Arch) (c : UInt8) (args : List (Argument arch)) :
    Option (List (Piece UInt8) × List (Argument arch)) :=
  if c = ascii 'd' then
    (vaInt args).map fun (value, args) => ([plain (intText value)], args)
  else if c = ascii 'u' then
    (vaInt args).map fun (value, args) => ([plain (uintText 10 digitsLower value)], args)
  else if c = ascii 'x' then
    (vaInt args).map fun (value, args) => ([plain (uintText 16 digitsLower value)], args)
  else if c = ascii 'X' then
    (vaInt args).map fun (value, args) => ([plain (uintText 16 digitsUpper value)], args)
  else if c = ascii 'p' then
    (vaAddress args).map fun (address, args) => (pointerPieces arch address, args)
  else if c = ascii 's' then
    (vaString args).map fun (value, args) =>
      ([plain (value.getD (literal ['(', 'n', 'u', 'l', 'l', ')']))], args)
  else if c = ascii 'c' then
    (vaInt args).map fun (value, args) => ([plain [toChar value]], args)
  else some ([plain [c]], args)

/-- The pieces a format and its arguments stand for; `none` if the arguments do not match the
conversions. The flag tells whether a percent sign came just before. -/
def script (arch : Arch) : Bool → List UInt8 → List (Argument arch) → Option (List (Piece UInt8))
  | _, [], _ => some []
  | false, c :: fmt, args =>
    if c = ascii '%' then script arch true fmt args
    else (script arch false fmt args).map (fun rest => [plain [c]] ++ rest)
  | true, c :: fmt, args =>
    (describe arch c args).bind fun described =>
      (script arch false fmt described.2).map (fun rest => described.1 ++ rest)

/-- The number of these in what a conversion inserts. -/
def unseenIn (arch : Arch) (c : UInt8) (args : List (Argument arch)) : Nat :=
  if c = ascii 's' then
    (vaString args).elim 0 fun taken => unseen (taken.1.getD (literal ['(', 'n', 'u', 'l', 'l', ')']))
  else if c = ascii 'c' then (vaInt args).elim 0 fun taken => unseen [toChar taken.1]
  else unseen [c]

/-- The number of these in a format and its arguments. -/
def hidden (arch : Arch) : Bool → List UInt8 → List (Argument arch) → Nat
  | _, [], _ => 0
  | false, c :: fmt, args =>
    if c = ascii '%' then hidden arch true fmt args else unseen [c] + hidden arch false fmt args
  | true, c :: fmt, args =>
    unseenIn arch c args + (describe arch c args).elim 0 fun described => hidden arch false fmt described.2

/-- Pieces of characters that `insert_char` lets through, which lose nothing in vain. -/
structure Proper (pieces : List (Piece UInt8)) : Prop where
  purposeful : Purposeful pieces
  shown : ∀ c ∈ whole pieces, visible c

theorem Proper.append (first : Proper pieces) (second : Proper more) : Proper (pieces ++ more) where
  purposeful := first.purposeful.append second.purposeful
  shown := by
    intro c member
    rw [whole_append] at member
    rcases List.mem_append.mp member with left | right
    · exact first.shown c left
    · exact second.shown c right

theorem Proper.nonzero (proper : Proper pieces) : 0 ∉ received room pieces := by
  intro member
  exact absurd (proper.shown 0 (received_subset member)) (by decide)

theorem proper_plain (chars : List UInt8) : Proper [plain chars] where
  purposeful := by
    intro piece member loses
    rw [List.mem_singleton.mp member] at loses
    exact absurd rfl loses
  shown := by simp [whole, plain]

theorem proper_pointerPieces (arch : Arch) (address : BitVec arch.bits) :
    Proper (pointerPieces arch address) := by
  apply (proper_plain (literal ['0', 'x'])).append
  constructor
  · intro piece member loses
    rw [List.mem_singleton.mp member] at loses ⊢
    have zero : visible (ascii '0') := by decide
    exact List.ne_nil_of_mem (List.mem_filter.mpr
      ⟨List.mem_append_left _ (List.mem_replicate.mpr ⟨loses, rfl⟩), zero⟩)
  · intro c member
    rw [whole, whole, List.append_nil] at member
    exact (List.mem_filter.mp member).2

/-- The conversions that take an argument do so in the same way. -/
theorem taken_inserts {value : Type} {insert : value → Sink → Option (Nat × Sink)}
    {text : value → List (Piece UInt8)} {more : value → Nat} {taken : Option (value × List (Argument arch))}
    (inserts : ∀ value, Inserts (insert value) (text value) (more value)) (proper : ∀ value, Proper (text value))
    (described : taken.map (fun (value, args) => (text value, args)) = some (pieces, rest))
    (number : taken.elim 0 (fun taken => more taken.1) = total) :
    Proper pieces ∧ ∃ inserted, Inserts inserted pieces total ∧ ∀ sink,
      (do
        let (value, args) ← taken
        return (← insert value sink, args)) =
      (inserted sink).map (fun result => (result, rest)) := by
  cases taken with
  | none => cases described
  | some taken =>
    obtain ⟨value, args⟩ := taken
    obtain ⟨rfl, rfl⟩ := Prod.mk.inj (Option.some.inj described)
    subst number
    refine ⟨proper value, insert value, inserts value, ?_⟩
    intro sink
    cases result : insert value sink with
    | none => simp [result]
    | some result => simp [*]

theorem convert_inserts (described : describe arch c args = some (pieces, rest)) :
    Proper pieces ∧ ∃ inserted, Inserts inserted pieces (unseenIn arch c args) ∧ ∀ sink,
      convert arch c args sink = (inserted sink).map (fun result => (result, rest)) := by
  have none {letter : Char} (same : c = ascii letter) (shown : visible (ascii letter))
      (noString : ascii letter ≠ ascii 's') (noChar : ascii letter ≠ ascii 'c')
      {value : Type} (taken : Option (value × List (Argument arch))) :
      taken.elim 0 (fun _ => 0) = unseenIn arch c args := by
    rw [unseenIn, same, if_neg noString, if_neg noChar, unseen_eq_zero (by simpa using shown)]
    cases taken <;> rfl
  unfold describe at described
  unfold convert
  split_ifs at described ⊢ with d u x X p s ch
  · exact taken_inserts insertInt_inserts (fun _ => proper_plain _) described
      (none d (by decide) (by decide) (by decide) _)
  · exact taken_inserts (insertUint_inserts (by decide) (by decide) visible_digitsLower) (fun _ => proper_plain _)
      described (none u (by decide) (by decide) (by decide) _)
  · exact taken_inserts (insertUint_inserts (by decide) (by decide) visible_digitsLower) (fun _ => proper_plain _)
      described (none x (by decide) (by decide) (by decide) _)
  · exact taken_inserts (insertUint_inserts (by decide) (by decide) visible_digitsUpper) (fun _ => proper_plain _)
      described (none X (by decide) (by decide) (by decide) _)
  · exact taken_inserts (insertPointer_inserts arch) (proper_pointerPieces arch) described
      (none p (by decide) (by decide) (by decide) _)
  · exact taken_inserts insertString_inserts (fun _ => proper_plain _) described (if_pos s).symm
  · exact taken_inserts (fun value => insertChar_inserts (toChar value)) (fun _ => proper_plain _) described
      ((if_neg s).trans (if_pos ch)).symm
  · obtain ⟨rfl, rfl⟩ := Prod.mk.inj (Option.some.inj described)
    rw [unseenIn, if_neg s, if_neg ch]
    exact ⟨proper_plain [c], _, insertChar_inserts c, fun sink => rfl⟩

/-- The loop over the format inserts all pieces, by induction on the format. -/
theorem formatLoop_inserts (scripted : script arch handling fmt args = some pieces) :
    Proper pieces ∧ ∀ memory buf text room i, (formatLoop arch handling fmt args i
      (filled memory buf text room)).map (fun result => (result.1, result.2.memory)) =
        some (i + (counted room pieces + hidden arch handling fmt args),
          poke memory buf (text ++ received room pieces ++ [0])) := by
  induction fmt generalizing handling args pieces with
  | nil =>
    obtain rfl : [] = pieces := by cases handling <;> exact Option.some.inj scripted
    refine ⟨⟨by simp [Purposeful], by simp [whole]⟩, ?_⟩
    intro memory buf text room i
    rw [received, List.append_nil, poke_append_singleton]
    cases handling <;> rfl
  | cons c fmt ih =>
    cases handling with
    | false =>
      by_cases percent : c = ascii '%'
      · rw [script, if_pos percent] at scripted
        obtain ⟨proper, later⟩ := ih scripted
        refine ⟨proper, ?_⟩
        intro memory buf text room i
        rw [formatLoop, if_pos percent, hidden, if_pos percent]
        exact later memory buf text room i
      · rw [script, if_neg percent] at scripted
        obtain ⟨rest, tail, rfl⟩ := Option.map_eq_some_iff.mp scripted
        obtain ⟨proper, later⟩ := ih tail
        refine ⟨(proper_plain [c]).append proper, ?_⟩
        intro memory buf text room i
        have length := @counted_plain room [c]
        rw [List.length_singleton] at length
        rw [formatLoop, if_neg percent, insertChar_filled, later, hidden, if_neg percent, received_append,
          counted_append, ← List.append_assoc text]
        exact congrArg some (Prod.ext (by dsimp only; omega) rfl)
    | true =>
      obtain ⟨⟨first, others⟩, described, continued⟩ := Option.bind_eq_some_iff.mp scripted
      obtain ⟨rest, tail, rfl⟩ := Option.map_eq_some_iff.mp continued
      obtain ⟨proper, later⟩ := ih tail
      obtain ⟨here, inserted, inserts, converts⟩ := convert_inserts described
      refine ⟨here.append proper, ?_⟩
      intro memory buf text room i
      rw [formatLoop, converts, inserts_iff.mp inserts]
      simp only [Option.map_some, Option.bind_eq_bind, Option.bind_some]
      rw [later, hidden, described, received_append, counted_append, ← List.append_assoc text]
      exact congrArg some (Prod.ext (by simp only [Option.elim_some]; omega) rfl)

/-- What a call returns and what it writes. -/
theorem vsnprintf_eq (scripted : script arch false fmt args = some pieces) (memory : Memory)
    (buffer : buf ≠ 0) (positive : 1 ≤ size) :
    vsnprintf arch memory buf size (some fmt) args =
      some (BitVec.ofNat 32 (counted (size - 1) pieces + hidden arch false fmt args),
        poke memory buf (received (size - 1) pieces ++ [0])) := by
  have run := (formatLoop_inserts scripted).2 memory buf [] (size - 1) 0
  rw [filled_nil memory buf positive, List.nil_append, Nat.zero_add] at run
  obtain ⟨result, loop, same⟩ := Option.map_eq_some_iff.mp run
  obtain ⟨count, final⟩ := Prod.mk.inj same
  rw [vsnprintf, if_neg (by omega), loop, Option.map_some, count, final]

/-- A C string stands at an address. -/
structure HoldsString (memory : Memory) (address : Nat) (text : List UInt8) : Prop where
  chars : ∀ i, i < text.length → some (memory (address + i)) = text[i]?
  terminated : memory (address + text.length) = 0
  nonzero : 0 ∉ text

theorem HoldsString.length_le (first : HoldsString memory address text)
    (second : HoldsString memory address other) : text.length ≤ other.length := by
  by_contra longer
  have char := first.chars other.length (by omega)
  rw [second.terminated] at char
  exact first.nonzero (List.mem_of_getElem? char.symm)

theorem HoldsString.unique (first : HoldsString memory address text)
    (second : HoldsString memory address other) : text = other := by
  have length : text.length = other.length :=
    Nat.le_antisymm (first.length_le second) (second.length_le first)
  apply List.ext_getElem?
  intro i
  by_cases inside : i < text.length
  · rw [← first.chars i inside, second.chars i (by omega)]
  · rw [List.getElem?_eq_none (by omega), List.getElem?_eq_none (by omega)]

theorem HoldsString.tail (holds : HoldsString memory address (c :: text)) :
    memory address = c ∧ HoldsString memory (address + 1) text := by
  refine ⟨Option.some.inj (holds.chars 0 (Nat.succ_pos _)), ?_, ?_, ?_⟩
  · intro i inside
    have char := holds.chars (i + 1) (Nat.succ_lt_succ inside)
    rwa [Nat.add_comm i 1, ← Nat.add_assoc, Nat.add_comm 1 i, List.getElem?_cons_succ] at char
  · have ends := holds.terminated
    rwa [List.length_cons, Nat.add_comm text.length, ← Nat.add_assoc] at ends
  · exact fun member => holds.nonzero (List.mem_cons_of_mem c member)

section
variable (holds : HoldsString memory address text)
include holds

theorem HoldsString.drop (inside : n ≤ text.length) :
    HoldsString memory (address + n) (text.drop n) := by
  induction n generalizing address text with
  | zero => exact holds
  | succ n ih =>
    cases text with
    | nil => exact absurd inside (Nat.not_succ_le_zero n)
    | cons c text =>
      rw [List.drop_succ_cons, Nat.add_comm n, ← Nat.add_assoc]
      exact ih holds.tail.2 (Nat.le_of_succ_le_succ inside)

theorem HoldsString.head : memory address = text.headD 0 := by
  cases text with
  | nil => exact holds.terminated
  | cons c text => exact holds.tail.1

theorem HoldsString.eq_nil (ended : memory address = 0) : text = [] := by
  cases text with
  | nil => rfl
  | cons c text =>
    have member : 0 ∈ c :: text := List.mem_cons.mpr (.inl (ended.symm.trans holds.tail.1))
    exact absurd member holds.nonzero

theorem HoldsString.eq_cons (more : memory address ≠ 0) :
    ∃ rest, text = memory address :: rest ∧ HoldsString memory (address + 1) rest := by
  cases text with
  | nil => exact absurd holds.terminated more
  | cons c rest =>
    obtain ⟨here, later⟩ := holds.tail
    exact ⟨rest, by rw [here], later⟩

end

theorem holdsString_poke (nonzero : 0 ∉ text) :
    HoldsString (poke memory address (text ++ [0])) address text where
  chars := by
    intro i inside
    simp [poke, List.getElem?_append_left inside, List.getElem?_eq_getElem inside]
  terminated := by simp [poke]
  nonzero := nonzero

/-- The call leaves this C string in the buffer. -/
def Leaves (arch : Arch) (memory : Memory) (buf : Nat) (fmt : List UInt8)
    (args : List (Argument arch)) (size : Nat) (text : List UInt8) : Prop :=
  ∃ count final, vsnprintf arch memory buf size (some fmt) args = some (count, final) ∧
    HoldsString final buf text

theorem leaves_iff (scripted : script arch false fmt args = some pieces) (buffer : buf ≠ 0)
    (positive : 1 ≤ size) :
    Leaves arch memory buf fmt args size text ↔ text = received (size - 1) pieces := by
  have proper := (formatLoop_inserts scripted).1
  have call := vsnprintf_eq scripted memory buffer positive
  constructor
  · rintro ⟨count, final, left, holds⟩
    rw [call] at left
    obtain ⟨-, rfl⟩ := Prod.mk.inj (Option.some.inj left)
    exact holds.unique (holdsString_poke proper.nonzero)
  · intro same
    subst same
    exact ⟨_, _, call, holdsString_poke proper.nonzero⟩

/-- A buffer that is large enough receives the whole text. -/
theorem exists_leaves_whole (scripted : script arch false fmt args = some pieces) (buffer : buf ≠ 0)
    (memory : Memory) :
    ∃ enough, ∀ size, enough ≤ size → Leaves arch memory buf fmt args size (whole pieces) := by
  refine ⟨(whole pieces).length + lost pieces + 1, ?_⟩
  intro size enough
  rw [leaves_iff scripted buffer (by omega), received_of_le (by omega)]

/-- The buffer is full before the leading zeros of the first pointer that has some, or it has room
for the whole text and once more for all leading zeros of pointers. -/
def Spared (pieces : List (Piece UInt8)) (size : Nat) : Prop :=
  size - 1 ≤ intact pieces ∨ (whole pieces).length + lost pieces ≤ size - 1

/-- With an unlimited buffer a call leaves a certain text. With a buffer of `size` bytes it leaves
the beginning of that text that fits exactly if no leading zero of a pointer is charged for twice
at the expense of the text. -/
theorem vsnprintf_truncates_iff (scripted : script arch false fmt args = some pieces)
    (buffer : buf ≠ 0) :
    (∃ enough, ∀ size, enough ≤ size → Leaves arch memory buf fmt args size (whole pieces)) ∧
      ∀ size, 1 ≤ size → (Leaves arch memory buf fmt args size ((whole pieces).take (size - 1)) ↔
        Spared pieces size) := by
  have proper := (formatLoop_inserts scripted).1
  refine ⟨exists_leaves_whole scripted buffer memory, ?_⟩
  intro size positive
  rw [leaves_iff scripted buffer positive, eq_comm]
  exact received_eq_take_iff proper.purposeful

theorem vsnprintf_truncates_sample :
    Leaves .x86_64 (fun _ => 255) 4096 (literal ['%', 'd', ' ', '%', 'p']) [.int 42, .pointer 16 []]
      4 (literal ['4', '2', ' ']) :=
  ((@vsnprintf_truncates_iff .x86_64 (literal ['%', 'd', ' ', '%', 'p']) [.int 42, .pointer 16 []] _
    4096 (fun _ => 255) rfl (by decide)).2 4 (by decide)).mpr (.inl (by decide))

/-- A buffer of ten bytes takes nine characters of the ten of `0x00000010`, but it receives
three. -/
theorem pointer_cut_short :
    Leaves .i386 (fun _ => 255) 4096 (literal ['%', 'p']) [.pointer 16 []] 64
        (literal ['0', 'x', '0', '0', '0', '0', '0', '0', '1', '0']) ∧
      Leaves .i386 (fun _ => 255) 4096 (literal ['%', 'p']) [.pointer 16 []] 10
        (literal ['0', 'x', '0']) ∧
      ¬ Leaves .i386 (fun _ => 255) 4096 (literal ['%', 'p']) [.pointer 16 []] 10
        ((literal ['0', 'x', '0', '0', '0', '0', '0', '0', '1', '0']).take 9) := by
  have scripted : script .i386 false (literal ['%', 'p']) [.pointer 16 []] =
      some (pointerPieces .i386 16) := rfl
  refine ⟨?_, ?_, ?_⟩
  · exact (leaves_iff scripted (by decide) (by decide)).mpr (by decide)
  · exact (leaves_iff scripted (by decide) (by decide)).mpr (by decide)
  · intro leaves
    exact absurd ((leaves_iff scripted (by decide) (by decide)).mp leaves) (by decide)

end FlapjackOS.Stdio
