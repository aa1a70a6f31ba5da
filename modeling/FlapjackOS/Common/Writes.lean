import FlapjackOS.Common.Length

namespace FlapjackOS.Stdio

open Machine Allotment

variable {arch : Arch}

/-- A write to the destination, or to the array `tmp` of a helper. -/
inductive Write where
  | buffer (address : Nat)
  | scratch (index : Int)
  deriving DecidableEq, Repr

def insertCharWrites (c : UInt8) (sink : Sink) : List Write :=
  if 1 < sink.size then if visible c then [.buffer sink.str] else [] else []

def insertCharsWrites : List UInt8 → Sink → List Write
  | [], _ => []
  | c :: value, sink => insertCharWrites c sink ++ insertCharsWrites value (insertChar c sink).2

def insertStringWrites (value : Option (List UInt8)) (sink : Sink) : List Write :=
  insertCharsWrites (value.getD (literal ['(', 'n', 'u', 'l', 'l', ')'])) sink

/-- The loop of `reverse`. Without digits, its last index is in front of the array. -/
def reverseLoop : Nat → Int → Int → List Write
  | 0, _, _ => []
  | fuel + 1, first, last =>
    if first < last then [.scratch first, .scratch last] ++ reverseLoop fuel (first + 1) (last - 1) else []

/-- So many characters are put into `tmp` from its beginning on, and then reversed. -/
def scratchWrites (count : Nat) : List Write :=
  (List.range count).map (fun i => .scratch i) ++ reverseLoop count 0 (count - 1)

def insertIntWrites (value : BitVec 32) (base : Nat) (digits : List UInt8) (sink : Sink) : List Write :=
  let tmp := (intDigits digits base (if value.slt 0 then -value else value)).getD []
  (if value.slt 0 then insertCharWrites (ascii '-') sink else []) ++
    (scratchWrites tmp.length ++ insertStringWrites (some tmp.reverse)
      (if value.slt 0 then (insertChar (ascii '-') sink).2 else sink))

def insertUintWrites (value : BitVec 32) (base : Nat) (digits : List UInt8) (sink : Sink) : List Write :=
  let tmp := (uintDigits digits base value).getD []
  scratchWrites tmp.length ++ insertStringWrites (some tmp.reverse) sink

/-- The part of `insert_pointer` after the `0x`. -/
def insertAddressWrites (arch : Arch) (value : BitVec arch.bits) (sink : Sink) : List Write :=
  let tmp := (digitLoop digitsLower 16 31 value.toNat).getD []
  let (zeros, after) := padding (2 * arch.wordBytes - tmp.length) sink
  scratchWrites (tmp ++ zeros).length ++ insertStringWrites (some (tmp ++ zeros).reverse) after

def insertPointerWrites (arch : Arch) (value : BitVec arch.bits) (sink : Sink) : List Write :=
  insertStringWrites (some (literal ['0', 'x'])) sink ++
    insertAddressWrites arch value (insertString (some (literal ['0', 'x'])) sink).2

def convertWrites (arch : Arch) (c : UInt8) (args : List (Argument arch)) (sink : Sink) : List Write :=
  if c = ascii 'd' then (vaInt args).elim [] fun taken => insertIntWrites taken.1 10 digitsLower sink
  else if c = ascii 'u' then (vaInt args).elim [] fun taken => insertUintWrites taken.1 10 digitsLower sink
  else if c = ascii 'x' then (vaInt args).elim [] fun taken => insertUintWrites taken.1 16 digitsLower sink
  else if c = ascii 'X' then (vaInt args).elim [] fun taken => insertUintWrites taken.1 16 digitsUpper sink
  else if c = ascii 'p' then (vaAddress args).elim [] fun taken => insertPointerWrites arch taken.1 sink
  else if c = ascii 's' then (vaString args).elim [] fun taken => insertStringWrites taken.1 sink
  else if c = ascii 'c' then (vaInt args).elim [] fun taken => insertCharWrites (toChar taken.1) sink
  else insertCharWrites c sink

def formatWrites (arch : Arch) : Bool → List UInt8 → List (Argument arch) → Sink → List Write
  | _, [], _, sink => if 1 ≤ sink.size then [.buffer sink.str] else []
  | false, c :: fmt, args, sink =>
    if c = ascii '%' then formatWrites arch true fmt args sink
    else insertCharWrites c sink ++ formatWrites arch false fmt args (insertChar c sink).2
  | true, c :: fmt, args, sink =>
    convertWrites arch c args sink ++ (convert arch c args sink).elim [] fun converted =>
      formatWrites arch false fmt converted.2 converted.1.2

/-- The writes of `vsnprintf`, in order. -/
def vsnprintfWrites (arch : Arch) (memory : Memory) (buf size : Nat) (fmt : Option (List UInt8))
    (args : List (Argument arch)) : List Write :=
  match fmt with
  | none => []
  | some fmt =>
    if buf = 0 ∨ size = 0 then [] else formatWrites arch false fmt args { memory, str := buf, size }

/-- A write goes to the first bytes of the buffer, or to one of the 32 characters of `tmp`. -/
def Within (buf limit : Nat) : Write → Prop
  | .buffer address => buf ≤ address ∧ address < buf + limit
  | .scratch index => 0 ≤ index ∧ index < 32

theorem Within.mono (within : Within buf limit write) (larger : limit ≤ more) : Within buf more write := by
  cases write with
  | buffer address =>
    obtain ⟨low, high⟩ := within
    exact ⟨low, by omega⟩
  | scratch index => exact within

theorem reverseLoop_within (low : 0 ≤ first) (high : last < 32) :
    ∀ write ∈ reverseLoop fuel first last, Within buf limit write := by
  induction fuel generalizing first last with
  | zero => simp [reverseLoop]
  | succ fuel ih =>
    rw [reverseLoop]
    split
    · intro write member
      rcases List.mem_append.mp member with here | later
      · rcases List.mem_cons.mp here with rfl | second
        · exact ⟨low, by omega⟩
        · rw [List.mem_singleton.mp second]
          exact ⟨by omega, high⟩
      · exact ih (by omega) (by omega) write later
    · simp

theorem scratchWrites_within (fits : count ≤ 32) : ∀ write ∈ scratchWrites count, Within buf limit write := by
  intro write member
  rcases List.mem_append.mp member with fills | reverses
  · obtain ⟨i, inside, rfl⟩ := List.mem_map.mp fills
    have inside := List.mem_range.mp inside
    exact ⟨by omega, by omega⟩
  · exact reverseLoop_within (Int.le_refl 0) (by omega) write reverses

theorem uintDigits_length (digits : List UInt8) (base : Nat) (value : BitVec 32) :
    ((uintDigits digits base value).getD []).length ≤ 31 := by
  cases filled : uintDigits digits base value with
  | none => exact Nat.zero_le _
  | some tmp => exact (uintDigits_spec filled).2

theorem intDigits_length (digits : List UInt8) (base : Nat) (value : BitVec 32) :
    ((intDigits digits base value).getD []).length ≤ 31 := by
  cases filled : intDigits digits base value with
  | none => exact Nat.zero_le _
  | some tmp => exact (intDigits_spec filled).2

/-- The writes stay in the room that is left and so many bytes behind it, and all of the text that the
room receives of the pieces is among them, and so many bytes behind it. -/
structure Traces (behind : Nat) (writes : Sink → List Write) (pieces : List (Piece UInt8)) : Prop where
  within : ∀ memory buf text room, ∀ write ∈ writes (filled memory buf text room),
    Within buf (text.length + room + behind) write
  covers : ∀ memory buf text room offset, text.length ≤ offset →
    offset < text.length + (received room pieces).length + behind →
    .buffer (buf + offset) ∈ writes (filled memory buf text room)

theorem Traces.congr (traces : Traces behind writes pieces)
    (same : ∀ room, received room pieces = received room more) : Traces behind writes more where
  within := traces.within
  covers memory buf text room := same room ▸ traces.covers memory buf text room

theorem Traces.append (first : Traces 0 writes pieces) (second : Traces behind others more)
    (next : Sink → Sink) (step : ∀ memory buf text room, next (filled memory buf text room) =
      filled memory buf (text ++ received room pieces) (remaining room pieces)) :
    Traces behind (fun sink => writes sink ++ others (next sink)) (pieces ++ more) where
  within memory buf text room write member := by
    rcases List.mem_append.mp member with early | late
    · apply (first.within memory buf text room write early).mono
      omega
    · rw [step] at late
      apply (second.within memory buf _ _ write late).mono
      have bound := @received_add_remaining_le _ pieces room
      rw [List.length_append]
      omega
  covers memory buf text room offset low high := by
    rw [step]
    by_cases early : offset < text.length + (received room pieces).length
    · exact List.mem_append_left _ (first.covers memory buf text room offset low early)
    · apply List.mem_append_right
      rw [received_append, List.length_append] at high
      refine second.covers memory buf _ _ offset ?_ ?_
      · rw [List.length_append]
        omega
      · rw [List.length_append]
        omega

theorem traces_scratch (fits : count ≤ 32) : Traces 0 (fun _ => scratchWrites count) [] where
  within _ _ _ _ := scratchWrites_within fits
  covers _ _ _ _ offset low high := by
    rw [received, List.length_nil] at high
    omega

theorem traces_char (c : UInt8) : Traces 0 (insertCharWrites c) [plain [c]] where
  within memory buf text room write member := by
    unfold insertCharWrites at member
    split_ifs at member with space shown
    · have room : 1 < room + 1 := space
      rw [List.mem_singleton.mp member]
      change buf ≤ buf + text.length ∧ buf + text.length < buf + (text.length + _ + 0)
      omega
    · cases member
    · cases member
  covers memory buf text room offset low high := by
    cases room with
    | zero => simp [received] at high; omega
    | succ room =>
      by_cases shown : visible c
      · have here : offset = text.length := by
          simp [received, plain, shown] at high
          omega
        simp [insertCharWrites, filled, shown, here]
      · simp [received, plain, shown] at high
        omega

theorem traces_chars (value : List UInt8) : Traces 0 (insertCharsWrites value) [plain value] := by
  induction value with
  | nil =>
    constructor
    · simp [insertCharsWrites]
    · intro memory buf text room offset low high
      simp [received, plain] at high
      omega
  | cons c value ih =>
    have both := (traces_char c).append ih (fun sink => (insertChar c sink).2) fun _ _ _ _ => congrArg Prod.snd
      (insertChar_filled c)
    apply both.congr
    intro room
    rw [received_append, ← received_plain_append]
    rfl

theorem traces_string (value : Option (List UInt8)) :
    Traces 0 (insertStringWrites value) [plain (value.getD (literal ['(', 'n', 'u', 'l', 'l', ')']))] :=
  traces_chars _

/-- Digits are put into `tmp` and inserted from there. -/
theorem traces_digits {tmp : List UInt8} (fits : tmp.length ≤ 31) :
    Traces 0 (fun sink => scratchWrites tmp.length ++ insertStringWrites (some tmp.reverse) sink)
      [plain tmp.reverse] :=
  (traces_scratch (Nat.le_succ_of_le fits)).append (traces_string (some tmp.reverse)) id
    fun _ _ _ _ => by simp [received, remaining]

theorem traces_int (value : BitVec 32) :
    Traces 0 (insertIntWrites value 10 digitsLower) [plain (intText value)] := by
  have digits := traces_digits (intDigits_length digitsLower 10 (if value.slt 0 then -value else value))
  unfold insertIntWrites intText
  generalize (intDigits digitsLower 10 (if value.slt 0 then -value else value)).getD [] = tmp at digits ⊢
  by_cases negative : value.slt 0
  · simp only [if_pos negative]
    have both := (traces_char (ascii '-')).append digits (fun sink => (insertChar (ascii '-') sink).2)
      fun _ _ _ _ => congrArg Prod.snd (insertChar_filled _)
    apply both.congr
    intro room
    rw [received_append, ← received_plain_append]
  · simp only [if_neg negative]
    exact digits

theorem traces_uint (base : Nat) (digits : List UInt8) (value : BitVec 32) :
    Traces 0 (insertUintWrites value base digits) [plain (uintText base digits value)] :=
  traces_digits (uintDigits_length digits base value)

/-- The zeros in `tmp` take the room that they are given, and no more than a word has digits. -/
theorem traces_address (arch : Arch) (address : BitVec arch.bits) :
    Traces 0 (insertAddressWrites arch address)
      [{ lost := leading arch address
         text := (List.replicate (leading arch address) (ascii '0') ++
          (addressDigits address).reverse).filter visible }] := by
  have digits : (digitLoop digitsLower 16 31 address.toNat).getD [] = addressDigits address := rfl
  have short : (addressDigits address).length ≤ 31 := (digitLoop_spec (addressDigits_eq address)).2
  have word : 2 * arch.wordBytes ≤ 16 := by cases arch <;> decide
  have zeros : leading arch address + (addressDigits address).length ≤ 31 := by
    rw [leading]
    omega
  have shape (memory : Memory) (buf : Nat) (text : List UInt8) (room : Nat) :
      insertAddressWrites arch address (filled memory buf text room) =
        scratchWrites (addressDigits address ++
            List.replicate (min (leading arch address) room) (ascii '0')).length ++
          insertStringWrites (some (addressDigits address ++
            List.replicate (min (leading arch address) room) (ascii '0')).reverse)
            (filled memory buf text (room - leading arch address)) := by
    have width : 2 * arch.wordBytes - (addressDigits address).length = leading arch address := rfl
    simp only [insertAddressWrites, digits, width, padding_filled]
  have stored (room : Nat) : (addressDigits address ++
      List.replicate (min (leading arch address) room) (ascii '0')).length ≤ 31 := by
    rw [List.length_append, List.length_replicate]
    omega
  constructor
  · intro memory buf text room write member
    rw [shape] at member
    apply ((traces_digits (stored room)).within memory buf text _ write member).mono
    omega
  · intro memory buf text room offset low high
    rw [shape]
    apply (traces_digits (stored room)).covers memory buf text _ offset low
    -- either there is room for all the zeros, or nothing is received behind them
    rcases Nat.le_total (leading arch address) room with enough | full
    · simpa [received, plain, Nat.min_eq_left enough] using high
    · simp [received, Nat.sub_eq_zero_of_le full] at high
      omega

theorem traces_pointer (arch : Arch) (address : BitVec arch.bits) :
    Traces 0 (insertPointerWrites arch address) (pointerPieces arch address) :=
  (traces_string (some (literal ['0', 'x']))).append (traces_address arch address)
    (fun sink => (insertString (some (literal ['0', 'x'])) sink).2) fun _ _ _ _ => congrArg Prod.snd
    (insertChars_filled _)

/-- The conversions that take an argument are traced in the same way. -/
theorem taken_traces {value : Type} {writes : value → Sink → List Write} {text : value → List (Piece UInt8)}
    {taken : Option (value × List (Argument arch))} (traces : ∀ value, Traces 0 (writes value) (text value))
    (described : taken.map (fun (value, args) => (text value, args)) = some (pieces, rest)) :
    Traces 0 (fun sink => taken.elim [] fun taken => writes taken.1 sink) pieces := by
  cases taken with
  | none => cases described
  | some taken =>
    obtain ⟨rfl, _⟩ := Prod.mk.inj (Option.some.inj described)
    exact traces taken.1

theorem traces_convert (described : describe arch c args = some (pieces, rest)) :
    Traces 0 (convertWrites arch c args) pieces := by
  unfold describe at described
  unfold convertWrites
  split_ifs at described ⊢
  · exact taken_traces traces_int described
  · exact taken_traces (traces_uint 10 digitsLower) described
  · exact taken_traces (traces_uint 16 digitsLower) described
  · exact taken_traces (traces_uint 16 digitsUpper) described
  · exact taken_traces (traces_pointer arch) described
  · exact taken_traces traces_string described
  · exact taken_traces (fun value => traces_char (toChar value)) described
  · obtain ⟨rfl, _⟩ := Prod.mk.inj (Option.some.inj described)
    exact traces_char c

/-- At the end of the format, the terminator is written. -/
theorem traces_end (handling : Bool) (args : List (Argument arch)) :
    Traces 1 (formatWrites arch handling [] args) [] := by
  have ends (memory : Memory) (buf : Nat) (text : List UInt8) (room : Nat) :
      formatWrites arch handling [] args (filled memory buf text room) = [.buffer (buf + text.length)] := by
    cases handling <;> simp [formatWrites, filled]
  constructor
  · intro memory buf text room write member
    rw [ends] at member
    rw [List.mem_singleton.mp member]
    exact ⟨by omega, by omega⟩
  · intro memory buf text room offset low high
    rw [received, List.length_nil] at high
    rw [ends, List.mem_singleton, show offset = text.length by omega]

/-- The loop over the format writes the terminator behind the text, by induction on the format. -/
theorem traces_format (scripted : script arch handling fmt args = some pieces) :
    Traces 1 (formatWrites arch handling fmt args) pieces := by
  induction fmt generalizing handling args pieces with
  | nil =>
    obtain rfl : [] = pieces := by cases handling <;> exact Option.some.inj scripted
    exact traces_end handling args
  | cons c fmt ih =>
    cases handling with
    | false =>
      by_cases percent : c = ascii '%'
      · rw [script, if_pos percent] at scripted
        have later := ih scripted
        have shape : formatWrites arch false (c :: fmt) args = formatWrites arch true fmt args := by
          funext sink
          rw [formatWrites, if_pos percent]
        rwa [shape]
      · rw [script, if_neg percent] at scripted
        obtain ⟨rest, tail, rfl⟩ := Option.map_eq_some_iff.mp scripted
        have both := (traces_char c).append (ih tail) (fun sink => (insertChar c sink).2)
          fun _ _ _ _ => congrArg Prod.snd (insertChar_filled c)
        have shape : formatWrites arch false (c :: fmt) args =
            fun sink => insertCharWrites c sink ++ formatWrites arch false fmt args (insertChar c sink).2 := by
          funext sink
          rw [formatWrites, if_neg percent]
        rwa [shape]
    | true =>
      obtain ⟨⟨first, others⟩, described, continued⟩ := Option.bind_eq_some_iff.mp scripted
      obtain ⟨rest, tail, rfl⟩ := Option.map_eq_some_iff.mp continued
      obtain ⟨_, inserted, inserts, converts⟩ := convert_inserts described
      have both := (traces_convert described).append (ih tail)
        (fun sink => ((inserted sink).map Prod.snd).getD sink) fun memory buf text room => by
          rw [inserts_iff.mp inserts]
          rfl
      have shape (memory : Memory) (buf : Nat) (text : List UInt8) (room : Nat) :
          formatWrites arch true (c :: fmt) args (filled memory buf text room) =
            convertWrites arch c args (filled memory buf text room) ++ formatWrites arch false fmt others
              (((inserted (filled memory buf text room)).map Prod.snd).getD (filled memory buf text room)) := by
        rw [formatWrites, converts, inserts_iff.mp inserts]
        rfl
      constructor
      · intro memory buf text room
        rw [shape]
        exact both.within memory buf text room
      · intro memory buf text room
        rw [shape]
        exact both.covers memory buf text room

/-- What may change in memory, and where the writes may go. -/
structure MemorySafe (memory final : Memory) (buf size : Nat) (writes : List Write) : Prop where
  within : ∀ write ∈ writes, Within buf size write
  accounted : ∀ address, final address ≠ memory address → .buffer address ∈ writes
  terminated : ∃ index, index < size ∧ final (buf + index) = 0

/-- Every call with a buffer returns, writes to the buffer and to its scratch arrays only, and leaves
a terminator in the buffer. -/
theorem vsnprintf_memory_safe (arch : Arch) (memory : Memory) (buf size : Nat) (fmt : List UInt8)
    (args : List (Argument arch)) (pieces : List (Piece UInt8))
    (scripted : script arch false fmt args = some pieces) (buffer : buf ≠ 0) (positive : 1 ≤ size) :
    ∃ count final, vsnprintf arch memory buf size (some fmt) args = some (count, final) ∧
      MemorySafe memory final buf size (vsnprintfWrites arch memory buf size (some fmt) args) := by
  refine ⟨_, _, vsnprintf_eq scripted memory buffer positive, ?_⟩
  have traces := traces_format scripted
  have start := filled_nil memory buf positive
  have short := @received_length_le _ pieces (size - 1)
  rw [vsnprintfWrites, if_neg (by omega), ← start]
  constructor
  · intro write member
    apply (traces.within memory buf [] (size - 1) write member).mono
    rw [List.length_nil]
    omega
  · intro address changed
    obtain ⟨low, high⟩ : buf ≤ address ∧ address < buf + (received (size - 1) pieces ++ [0]).length := by
      by_contra outside
      apply changed
      exact poke_outside (by omega)
    rw [List.length_append, List.length_singleton] at high
    have covered := traces.covers memory buf [] (size - 1) (address - buf) (Nat.zero_le _) (by
      rw [List.length_nil]
      omega)
    rwa [Nat.add_sub_cancel' low] at covered
  · exact ⟨(received (size - 1) pieces).length, by omega, by simp [poke]⟩

theorem vsnprintf_memory_safe_sample :
    ∃ count final, vsnprintf .x86_64 (fun _ => 255) 4096 7 (some (literal ['%', 'd', '%', 'p', '%', 's']))
        [.int 0x80000000, .pointer 16 [], .pointer 0 []] = some (count, final) ∧
      MemorySafe (fun _ => 255) final 4096 7 (vsnprintfWrites .x86_64 (fun _ => 255) 4096 7
        (some (literal ['%', 'd', '%', 'p', '%', 's'])) [.int 0x80000000, .pointer 16 [], .pointer 0 []]) :=
  vsnprintf_memory_safe .x86_64 (fun _ => 255) 4096 7 (literal ['%', 'd', '%', 'p', '%', 's'])
    [.int 0x80000000, .pointer 16 [], .pointer 0 []] _ rfl (by decide) (by decide)

end FlapjackOS.Stdio
