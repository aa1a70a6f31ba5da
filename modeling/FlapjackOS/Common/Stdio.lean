import FlapjackOS.Common.String
import FlapjackOS.Machine.Allotment

/-! `vsnprintf` of the kernel's C library. `none` stands for a read past the arguments, an argument
of another type than the conversion takes, or an access outside a table or a scratch array. -/

namespace FlapjackOS.Stdio

open Machine Allotment

/-- A `char` is a byte. A C string is the list of its characters in front of the NUL. -/
def ascii (c : Char) : UInt8 := UInt8.ofNat c.toNat

def literal (chars : List Char) : List UInt8 := chars.map ascii

def digitsLower : List UInt8 := literal
  ['0', '1', '2', '3', '4', '5', '6', '7', '8', '9', 'a', 'b', 'c', 'd', 'e', 'f', 'g', 'h',
   'i', 'j', 'k', 'l', 'm', 'n', 'o', 'p', 'q', 'r', 's', 't', 'u', 'v', 'w', 'x', 'y', 'z']

-- The source's table has `O` in front of `M`. No base over 16 is used.
def digitsUpper : List UInt8 := literal
  ['0', '1', '2', '3', '4', '5', '6', '7', '8', '9', 'A', 'B', 'C', 'D', 'E', 'F', 'G', 'H',
   'I', 'J', 'K', 'L', 'O', 'M', 'N', 'P', 'Q', 'R', 'S', 'T', 'U', 'V', 'W', 'X', 'Y', 'Z']

/-- `isprint` takes an `int`; a byte from 128 on arrives there as a negative number. -/
def isprint (c : Int) : Bool := 32 ≤ c && c ≤ 126

/-- The characters `insert_char` lets through. -/
def visible (c : UInt8) : Bool :=
  isprint c.toInt8.toInt || c = ascii '\n' || c = ascii '\t'

/-- The destination: `*str`, `*size` and the memory written to. -/
structure Sink where
  memory : Memory
  str : Nat
  size : Nat

/-- `i += next(..., str, size)` -/
def andThen (first : Nat × Sink) (next : Sink → Nat × Sink) : Nat × Sink :=
  (first.1 + (next first.2).1, (next first.2).2)

def insertChar (c : UInt8) (sink : Sink) : Nat × Sink :=
  if 1 < sink.size then
    if visible c then
      (1, { memory := storeByte sink.memory sink.str c, str := sink.str + 1, size := sink.size - 1 })
    else (1, sink)
  else (1, sink)

/-- The loop `while (*value)` of `insert_string`. -/
def insertChars : List UInt8 → Sink → Nat × Sink
  | [], sink => (0, sink)
  | c :: value, sink => andThen (insertChar c sink) (insertChars value)

/-- `insert_string`; a null pointer is `none`. -/
def insertString (value : Option (List UInt8)) (sink : Sink) : Nat × Sink :=
  insertChars (value.getD (literal ['(', 'n', 'u', 'l', 'l', ')'])) sink

/-- The loop `while (value > 0)`, which fills `tmp` from the lowest digit on. The 32 characters
of `tmp` end with a NUL. -/
def digitLoop (digits : List UInt8) (base : Nat) (slots value : Nat) : Option (List UInt8) :=
  if value = 0 then some []
  else match slots with
    | 0 => none
    | slots + 1 => do
      let digit ← digits[value % base]?
      let rest ← digitLoop digits base slots (value / base)
      return digit :: rest

/-- What `insert_int` puts into `tmp`. The magnitude of `INT_MIN` is negative again. -/
def intDigits (digits : List UInt8) (base : Nat) (value : BitVec 32) : Option (List UInt8) :=
  if value = 0 then digits[0]?.map (fun digit => [digit])
  else if (0#32).slt value then digitLoop digits base 31 value.toNat
  else some []

/-- What `insert_uint` puts into `tmp`. -/
def uintDigits (digits : List UInt8) (base : Nat) (value : BitVec 32) : Option (List UInt8) :=
  if value = 0 then digits[0]?.map (fun digit => [digit])
  else digitLoop digits base 31 value.toNat

def insertInt (value : BitVec 32) (base : Nat) (digits : List UInt8) (sink : Sink) :
    Option (Nat × Sink) :=
  (intDigits digits base (if value.slt 0 then -value else value)).map fun tmp =>
    andThen (if value.slt 0 then insertChar (ascii '-') sink else (0, sink))
      (insertString (some tmp.reverse))

def insertUint (value : BitVec 32) (base : Nat) (digits : List UInt8) (sink : Sink) :
    Option (Nat × Sink) :=
  (uintDigits digits base value).map fun tmp => insertString (some tmp.reverse) sink

/-- The loop `while (c > 0)` of `insert_pointer`, with the zeros it appends to `tmp`. Each of them
takes one from `*size`, although it is not written yet. -/
def padding : Nat → Sink → List UInt8 × Sink
  | 0, sink => ([], sink)
  | c + 1, sink =>
    if 1 < sink.size then
      (ascii '0' :: (padding c { sink with size := sink.size - 1 }).1,
        (padding c { sink with size := sink.size - 1 }).2)
    else padding c sink

def insertPointer (arch : Arch) (value : BitVec arch.bits) (sink : Sink) : Option (Nat × Sink) :=
  (digitLoop digitsLower 16 31 value.toNat).map fun tmp =>
    andThen (insertString (some (literal ['0', 'x'])) sink) fun sink =>
      insertString (some (tmp ++ (padding (2 * arch.wordBytes - tmp.length) sink).1).reverse)
        (padding (2 * arch.wordBytes - tmp.length) sink).2

/-- An argument in a `va_list`: an `int` or `unsigned`, or a pointer with the C string it points
to. -/
inductive Argument (arch : Arch) where
  | int (value : BitVec 32)
  | pointer (address : BitVec arch.bits) (pointee : List UInt8)

/-- `va_arg(args, int)` and `va_arg(args, unsigned)` -/
def vaInt : List (Argument arch) → Option (BitVec 32 × List (Argument arch))
  | .int value :: args => some (value, args)
  | _ => none

/-- `va_arg(args, uintptr_t)` -/
def vaAddress : List (Argument arch) → Option (BitVec arch.bits × List (Argument arch))
  | .pointer address _ :: args => some (address, args)
  | _ => none

/-- `va_arg(args, char *)` -/
def vaString : List (Argument arch) → Option (Option (List UInt8) × List (Argument arch))
  | .pointer address pointee :: args => some (if address = 0 then none else some pointee, args)
  | _ => none

/-- The cast of an `int` to a `char`. -/
def toChar (value : BitVec 32) : UInt8 := UInt8.ofBitVec (value.setWidth 8)

/-- The `switch` on the character after a percent sign. -/
def convert (arch : Arch) (c : UInt8) (args : List (Argument arch)) (sink : Sink) :
    Option ((Nat × Sink) × List (Argument arch)) :=
  if c = ascii 'd' then do
    let (value, args) ← vaInt args
    return (← insertInt value 10 digitsLower sink, args)
  else if c = ascii 'u' then do
    let (value, args) ← vaInt args
    return (← insertUint value 10 digitsLower sink, args)
  else if c = ascii 'x' then do
    let (value, args) ← vaInt args
    return (← insertUint value 16 digitsLower sink, args)
  else if c = ascii 'X' then do
    let (value, args) ← vaInt args
    return (← insertUint value 16 digitsUpper sink, args)
  else if c = ascii 'p' then do
    let (value, args) ← vaAddress args
    return (← insertPointer arch value sink, args)
  else if c = ascii 's' then do
    let (value, args) ← vaString args
    return (insertString value sink, args)
  else if c = ascii 'c' then do
    let (value, args) ← vaInt args
    return (insertChar (toChar value) sink, args)
  else some (insertChar c sink, args)

/-- The loop over the format. The flag is `handling_percent`. -/
def formatLoop (arch : Arch) :
    Bool → List UInt8 → List (Argument arch) → Nat → Sink → Option (Nat × Sink)
  | _, [], _, i, sink =>
    if 1 ≤ sink.size then
      some (i, { sink with memory := storeByte sink.memory sink.str 0, size := 0 })
    else some (i, sink)
  | false, c :: fmt, args, i, sink =>
    if c = ascii '%' then formatLoop arch true fmt args i sink
    else formatLoop arch false fmt args (i + (insertChar c sink).1) (insertChar c sink).2
  | true, c :: fmt, args, i, sink => do
    let (inserted, args) ← convert arch c args sink
    formatLoop arch false fmt args (i + inserted.1) inserted.2

/-- `vsnprintf`. Null pointers are `0` for the buffer and `none` for the format. -/
def vsnprintf (arch : Arch) (memory : Memory) (buf size : Nat) (fmt : Option (List UInt8))
    (args : List (Argument arch)) : Option (BitVec 32 × Memory) :=
  match fmt with
  | none => some (0, memory)
  | some fmt =>
    if buf = 0 ∨ size = 0 then some (0, memory)
    else (formatLoop arch false fmt args 0 { memory, str := buf, size }).map fun result =>
      (BitVec.ofNat 32 result.1, result.2.memory)

/-- `vasprintf`. The array `small` and the block that `calloc` returns are at the given addresses.
The lengths are `int`s that become `size_t`s. -/
def vasprintf (arch : Arch) (memory : Memory) (small result : Nat) (fmt : Option (List UInt8))
    (args : List (Argument arch)) : Option (BitVec 32 × Memory) := do
  let (len, memory) ← vsnprintf arch (storeByte memory small 0) small 1 fmt args
  let memory := CString.memset arch memory result 0 ((len + 1).signExtend arch.bits).toNat
  vsnprintf arch memory result (len.signExtend arch.bits).toNat fmt args

/-! What the insertions do to a buffer that has received some text already. -/

/-- The memory with a text written at an address. -/
def poke (memory : Memory) (address : Nat) (text : List UInt8) : Memory := fun x =>
  if address ≤ x then (text[x - address]?).getD (memory x) else memory x

theorem poke_append_singleton :
    poke memory address (text ++ [c]) = storeByte (poke memory address text) (address + text.length) c := by
  funext x
  by_cases last : x = address + text.length
  · subst last
    simp [poke]
  · rw [storeByte_other last]
    by_cases above : address ≤ x
    · rw [poke, poke, if_pos above, if_pos above, List.getElem?_append]
      by_cases inside : x - address < text.length
      · rw [if_pos inside]
      · have beyond : [c].length ≤ x - address - text.length := by
          rw [List.length_singleton]
          omega
        rw [if_neg inside, List.getElem?_eq_none beyond, List.getElem?_eq_none (by omega)]
    · rw [poke, poke, if_neg above, if_neg above]

theorem poke_outside (outside : x < address ∨ address + text.length ≤ x) : poke memory address text x = memory x := by
  rw [poke]
  split
  · rw [List.getElem?_eq_none (by omega), Option.getD_none]
  · rfl

/-- The sink after some text, with room for so many more characters. -/
def filled (memory : Memory) (buf : Nat) (text : List UInt8) (room : Nat) : Sink where
  memory := poke memory buf text
  str := buf + text.length
  size := room + 1

theorem filled_nil (memory : Memory) (buf : Nat) (positive : 1 ≤ size) :
    filled memory buf [] (size - 1) = { memory, str := buf, size } := by
  have empty : poke memory buf [] = memory := by
    funext x
    simp [poke]
  simp [filled, empty, Nat.sub_add_cancel positive]

/-- A text that is written as it is. -/
def plain (chars : List UInt8) : Piece UInt8 where
  lost := 0
  text := chars.filter visible

theorem received_plain_append (first second : List UInt8) :
    received room [plain (first ++ second)] =
      received room [plain first] ++ received (remaining room [plain first]) [plain second] := by
  simp [received, remaining, plain, List.take_append]

theorem remaining_plain_append (first second : List UInt8) :
    remaining room [plain (first ++ second)] =
      remaining (remaining room [plain first]) [plain second] := by
  simp [remaining, plain, Nat.sub_sub]

section
variable (insert : Sink → Option (Nat × Sink)) (pieces : List (Piece UInt8))

/-- The insertion adds what the room receives of the pieces. -/
def Emits : Prop :=
  ∀ memory buf text room, ∃ i, insert (filled memory buf text room) =
    some (i, filled memory buf (text ++ received room pieces) (remaining room pieces))

/-- The insertion returns what is counted of the pieces, and so many characters more. -/
def Counts (more : Nat) : Prop :=
  ∀ memory buf text room, ∃ sink,
    insert (filled memory buf text room) = some (counted room pieces + more, sink)

abbrev Inserts (more : Nat) : Prop :=
  Emits insert pieces ∧ Counts insert pieces more

end

theorem inserts_iff {insert : Sink → Option (Nat × Sink)} : Inserts insert pieces more ↔
    ∀ memory buf text room, insert (filled memory buf text room) = some (counted room pieces + more,
      filled memory buf (text ++ received room pieces) (remaining room pieces)) := by
  constructor
  · rintro ⟨emits, counts⟩ memory buf text room
    obtain ⟨i, emitted⟩ := emits memory buf text room
    obtain ⟨sink, counted⟩ := counts memory buf text room
    rw [emitted, (Prod.mk.inj (Option.some.inj (emitted.symm.trans counted))).1]
  · intro inserts
    exact ⟨fun _ _ _ _ => ⟨_, inserts ..⟩, fun _ _ _ _ => ⟨_, inserts ..⟩⟩

/-- The number of characters that `insert_char` does not let through. -/
def unseen (chars : List UInt8) : Nat := chars.countP (fun c => !visible c)

theorem length_plain_add_unseen (chars : List UInt8) : (plain chars).text.length + unseen chars = chars.length := by
  simp only [plain, unseen]
  induction chars with
  | nil => rfl
  | cons c chars ih =>
    by_cases shown : visible c <;> simp [shown] <;> omega

theorem unseen_eq_zero (shown : ∀ c ∈ chars, visible c) : unseen chars = 0 := by
  apply List.countP_eq_zero.mpr
  intro c member
  simp [shown c member]

theorem counted_plain (chars : List UInt8) : counted room [plain chars] + unseen chars = chars.length := by
  rw [← length_plain_add_unseen chars]
  simp [counted, plain]

theorem counted_visible (shown : ∀ c ∈ chars, visible c) : counted room [plain chars] = chars.length := by
  rw [← counted_plain chars, unseen_eq_zero shown, Nat.add_zero]

theorem insertChar_filled (c : UInt8) : insertChar c (filled memory buf text room) =
    (1, filled memory buf (text ++ received room [plain [c]]) (remaining room [plain [c]])) := by
  by_cases shown : visible c
  · cases room with
    | zero => simp [insertChar, filled, received, remaining]
    | succ room =>
      simp [insertChar, filled, received, remaining, plain, shown, poke_append_singleton, Nat.add_assoc]
  · simp [insertChar, filled, received, remaining, plain, shown]

theorem insertChars_filled (value : List UInt8) : insertChars value (filled memory buf text room) =
    (value.length, filled memory buf (text ++ received room [plain value]) (remaining room [plain value])) := by
  induction value generalizing text room with
  | nil => simp [insertChars, received, remaining, plain]
  | cons c value ih =>
    rw [insertChars, andThen, insertChar_filled, ih, List.append_assoc, ← received_plain_append,
      ← remaining_plain_append, List.singleton_append, List.length_cons, Nat.add_comm]

theorem insertChar_inserts (c : UInt8) : Inserts (fun sink => some (insertChar c sink)) [plain [c]] (unseen [c]) := by
  refine inserts_iff.mpr fun memory buf text room => ?_
  rw [counted_plain, List.length_singleton]
  exact congrArg some (insertChar_filled c)

theorem insertString_inserts (value : Option (List UInt8)) :
    Inserts (fun sink => some (insertString value sink))
      [plain (value.getD (literal ['(', 'n', 'u', 'l', 'l', ')']))]
      (unseen (value.getD (literal ['(', 'n', 'u', 'l', 'l', ')']))) := by
  refine inserts_iff.mpr fun memory buf text room => ?_
  rw [counted_plain]
  exact congrArg some (insertChars_filled _)

/-- The zeros are charged for as soon as they are in `tmp`. -/
theorem padding_filled (c : Nat) : padding c (filled memory buf text room) =
    (List.replicate (min c room) (ascii '0'), filled memory buf text (room - c)) := by
  induction c generalizing room with
  | zero => simp [padding]
  | succ c ih =>
    cases room with
    | zero =>
      have stays : padding (c + 1) (filled memory buf text 0) = padding c (filled memory buf text 0) :=
        if_neg (Nat.lt_irrefl 1)
      rw [stays, ih]
      simp
    | succ room =>
      have takes : padding (c + 1) (filled memory buf text (room + 1)) =
          (ascii '0' :: (padding c (filled memory buf text room)).1,
            (padding c (filled memory buf text room)).2) := if_pos (Nat.lt_add_of_pos_left room.succ_pos)
      rw [takes, ih, ← List.replicate_succ, Nat.succ_min_succ, Nat.add_sub_add_right]

theorem digitLoop_some (large : 2 ≤ base) (table : base ≤ digits.length) (fits : value < base ^ slots) :
    ∃ tmp, digitLoop digits base slots value = some tmp := by
  induction slots generalizing value with
  | zero =>
    rw [Nat.pow_zero, Nat.lt_one_iff] at fits
    exact ⟨[], by rw [digitLoop, if_pos fits]⟩
  | succ slots ih =>
    rw [digitLoop]
    by_cases zero : value = 0
    · exact ⟨[], if_pos zero⟩
    · obtain ⟨rest, filled⟩ := @ih (value / base)
        (Nat.div_lt_of_lt_mul (by rwa [Nat.mul_comm, ← Nat.pow_succ]))
      have inside : value % base < digits.length :=
        Nat.lt_of_lt_of_le (Nat.mod_lt value (by omega)) table
      exact ⟨digits[value % base] :: rest, by simp [zero, filled, List.getElem?_eq_getElem inside]⟩

/-- `tmp` is large enough for the digits of any machine word. -/
theorem digitLoop_fits (large : 10 ≤ base) (table : base ≤ digits.length) (word : value < 2 ^ 64) :
    ∃ tmp, digitLoop digits base 31 value = some tmp := by
  apply digitLoop_some (by omega) table
  calc value < 2 ^ 64 := word
    _ ≤ 10 ^ 31 := by decide
    _ ≤ base ^ 31 := Nat.pow_le_pow_left large 31

theorem intDigits_cases (digits : List UInt8) (base : Nat) (value : BitVec 32) :
    intDigits digits base value = uintDigits digits base value ∨ intDigits digits base value = some [] := by
  unfold intDigits uintDigits
  split_ifs
  · exact .inl rfl
  · exact .inl rfl
  · exact .inr rfl

theorem uintDigits_some (large : 10 ≤ base) (table : base ≤ digits.length) (value : BitVec 32) :
    ∃ tmp, uintDigits digits base value = some tmp := by
  unfold uintDigits
  split_ifs
  · exact ⟨[digits[0]], by simp [List.getElem?_eq_getElem (show 0 < digits.length by omega)]⟩
  · exact digitLoop_fits large table (Nat.lt_trans value.isLt (by decide))

theorem intDigits_some (large : 10 ≤ base) (table : base ≤ digits.length) (value : BitVec 32) :
    ∃ tmp, intDigits digits base value = some tmp := by
  rcases intDigits_cases digits base value with same | none
  · exact same ▸ uintDigits_some large table value
  · exact ⟨[], none⟩

/-! The text each conversion stands for. -/

def intText (value : BitVec 32) : List UInt8 :=
  (if value.slt 0 then [ascii '-'] else []) ++
    ((intDigits digitsLower 10 (if value.slt 0 then -value else value)).getD []).reverse

def uintText (base : Nat) (digits : List UInt8) (value : BitVec 32) : List UInt8 :=
  ((uintDigits digits base value).getD []).reverse

/-- The digits of an address, the lowest first and without leading zeros. -/
def addressDigits (address : BitVec (Arch.bits arch)) : List UInt8 :=
  (digitLoop digitsLower 16 31 address.toNat).getD []

theorem addressDigits_eq (address : BitVec (Arch.bits arch)) :
    digitLoop digitsLower 16 31 address.toNat = some (addressDigits address) := by
  have word : address.toNat < 2 ^ 64 := by
    cases arch with
    | i386 => exact Nat.lt_trans address.isLt (by decide)
    | x86_64 => exact address.isLt
  obtain ⟨tmp, filled⟩ := @digitLoop_fits 16 _ digitsLower (by decide) (by decide) word
  rw [addressDigits, filled, Option.getD_some]

/-- The leading zeros of an address. -/
def leading (arch : Arch) (address : BitVec arch.bits) : Nat :=
  2 * arch.wordBytes - (addressDigits address).length

/-- A pointer loses as many places as it has leading zeros. -/
def pointerPieces (arch : Arch) (address : BitVec arch.bits) : List (Piece UInt8) :=
  [plain (literal ['0', 'x']),
    { lost := leading arch address
      text := (List.replicate (leading arch address) (ascii '0') ++
        (addressDigits address).reverse).filter visible }]

/-- The digits come from the table, and there is a place for each of them. -/
theorem digitLoop_spec (filled : digitLoop digits base slots value = some tmp) :
    tmp ⊆ digits ∧ tmp.length ≤ slots := by
  induction slots generalizing value tmp with
  | zero =>
    rw [digitLoop] at filled
    split at filled <;> cases filled
    exact ⟨List.nil_subset _, Nat.le_refl 0⟩
  | succ slots ih =>
    rw [digitLoop] at filled
    split at filled
    · cases filled
      exact ⟨List.nil_subset _, Nat.zero_le _⟩
    · obtain ⟨digit, found, filled⟩ := Option.bind_eq_some_iff.mp filled
      obtain ⟨rest, others, filled⟩ := Option.bind_eq_some_iff.mp filled
      cases filled
      obtain ⟨subset, short⟩ := ih others
      exact ⟨List.cons_subset.mpr ⟨List.mem_of_getElem? found, subset⟩, Nat.succ_le_succ short⟩

theorem uintDigits_spec (filled : uintDigits digits base value = some tmp) : tmp ⊆ digits ∧ tmp.length ≤ 31 := by
  unfold uintDigits at filled
  split at filled
  · obtain ⟨digit, found, rfl⟩ := Option.map_eq_some_iff.mp filled
    exact ⟨List.cons_subset.mpr ⟨List.mem_of_getElem? found, List.nil_subset _⟩, Nat.succ_le_succ (Nat.zero_le _)⟩
  · exact digitLoop_spec filled

theorem intDigits_spec (filled : intDigits digits base value = some tmp) : tmp ⊆ digits ∧ tmp.length ≤ 31 := by
  rcases intDigits_cases digits base value with same | none
  · exact uintDigits_spec (same ▸ filled)
  · cases none.symm.trans filled
    exact ⟨List.nil_subset _, Nat.zero_le _⟩

theorem visible_digitsLower : ∀ c ∈ digitsLower, visible c := List.all_eq_true.mp (by decide)

theorem visible_digitsUpper : ∀ c ∈ digitsUpper, visible c := List.all_eq_true.mp (by decide)

theorem visible_intText (value : BitVec 32) : ∀ c ∈ intText value, visible c := by
  obtain ⟨tmp, filled⟩ := @intDigits_some 10 digitsLower (by decide) (by decide)
    (if value.slt 0 then -value else value)
  intro c member
  rw [intText, filled, Option.getD_some, List.mem_append, List.mem_reverse] at member
  rcases member with sign | digit
  · split at sign
    · rw [List.mem_singleton.mp sign]
      decide
    · cases sign
  · exact visible_digitsLower c ((intDigits_spec filled).1 digit)

theorem visible_uintText (large : 10 ≤ base) (table : base ≤ digits.length) (shown : ∀ c ∈ digits, visible c)
    (value : BitVec 32) : ∀ c ∈ uintText base digits value, visible c := by
  obtain ⟨tmp, filled⟩ := uintDigits_some large table value
  intro c member
  rw [uintText, filled, Option.getD_some, List.mem_reverse] at member
  exact shown c ((uintDigits_spec filled).1 member)

theorem insertInt_inserts (value : BitVec 32) :
    Inserts (insertInt value 10 digitsLower) [plain (intText value)] 0 := by
  refine inserts_iff.mpr fun memory buf text room => ?_
  obtain ⟨tmp, digits⟩ := @intDigits_some 10 digitsLower (by decide) (by decide)
    (if value.slt 0 then -value else value)
  rw [counted_visible (visible_intText value), insertInt, intText, digits, Option.map_some, Option.getD_some]
  by_cases negative : value.slt 0
  · rw [if_pos negative, if_pos negative, andThen, insertChar_filled, insertString, Option.getD_some,
      insertChars_filled, List.append_assoc, ← received_plain_append, ← remaining_plain_append,
      List.length_append, List.length_singleton, Nat.add_zero]
  · rw [if_neg negative, if_neg negative, andThen, insertString, Option.getD_some, insertChars_filled,
      Nat.zero_add, List.nil_append, Nat.add_zero]

theorem insertUint_inserts (large : 10 ≤ base) (table : base ≤ digits.length)
    (shown : ∀ c ∈ digits, visible c) (value : BitVec 32) :
    Inserts (insertUint value base digits) [plain (uintText base digits value)] 0 := by
  refine inserts_iff.mpr fun memory buf text room => ?_
  obtain ⟨tmp, filled⟩ := uintDigits_some large table value
  rw [counted_visible (visible_uintText large table shown value), insertUint, uintText, filled, Option.map_some,
    Option.getD_some, insertString, Option.getD_some, insertChars_filled, Nat.add_zero]

/-- A pointer's text has all its leading zeros and digits. -/
theorem length_pointer_text (arch : Arch) (address : BitVec arch.bits) :
    ((List.replicate (leading arch address) (ascii '0') ++ (addressDigits address).reverse).filter
      visible).length = leading arch address + (addressDigits address).length := by
  rw [List.filter_eq_self.mpr, List.length_append, List.length_replicate, List.length_reverse]
  intro c member
  rcases List.mem_append.mp member with zero | digit
  · rw [(List.mem_replicate.mp zero).2]
    decide
  · exact visible_digitsLower c ((digitLoop_spec (addressDigits_eq address)).1 (List.mem_reverse.mp digit))

theorem insertPointer_inserts (arch : Arch) (address : BitVec arch.bits) :
    Inserts (insertPointer arch address) (pointerPieces arch address) 0 := by
  refine inserts_iff.mpr fun memory buf text room => ?_
  have mark : (literal ['0', 'x']).filter visible = literal ['0', 'x'] := by decide
  have length := length_pointer_text arch address
  rw [insertPointer, addressDigits_eq, Option.map_some, ← leading]
  rw [andThen, insertString, Option.getD_some, insertChars_filled, padding_filled, insertString,
    Option.getD_some, insertChars_filled]
  simp only [pointerPieces, counted, received, remaining, List.append_nil, plain, Nat.sub_zero, mark]
  generalize room - (literal ['0', 'x']).length = left
  refine congrArg some (Prod.ext ?_ ?_)
  · rw [length, List.length_reverse, List.length_append, List.length_replicate]
    omega
  · rw [List.reverse_append, List.reverse_replicate]
    rcases Nat.le_total (leading arch address) left with enough | short
    · rw [Nat.min_eq_left enough, List.append_assoc]
    · simp [Nat.sub_eq_zero_of_le short]

end FlapjackOS.Stdio
