import FlapjackOS.Terminal.LineEditor

/-! How `PS2KeyboardDevice` takes the bytes of the keyboard port apart into scan codes. A key is given
by its number. -/

namespace FlapjackOS.Drivers.PS2KeyboardDevice

open Terminal

def maxScancodeBytes : Nat := 6

def scancodesMake : List UInt8 :=
  [0x1E, 0x30, 0x2E, 0x20, 0x12, 0x21, 0x22, 0x23, 0x17, 0x24, 0x25, 0x26, 0x32, 0x31, 0x18, 0x19,
    0x10, 0x13, 0x1F, 0x14, 0x16, 0x2F, 0x11, 0x2D, 0x15, 0x2C, 0x0B, 0x2, 0x3, 0x4, 0x5, 0x6, 0x7,
    0x8, 0x9, 0x0A, 0x29, 0x0C, 0x0D, 0x2B, 0x0E, 0x39, 0x0F, 0x3A, 0x2A, 0x1D, 0, 0x38, 0x36, 0,
    0, 0, 0, 0x1C, 0x1, 0x3B, 0x3C, 0x3D, 0x3E, 0x3F, 0x40, 0x41, 0x42, 0x43, 0x44, 0x57, 0x58, 0,
    0x46, 0, 0x1A] ++
  List.replicate 10 0 ++
  [0x45, 0, 0x37, 0x4A, 0x4E, 0, 0x53, 0x52, 0x4F, 0x50, 0x51, 0x4B, 0x4C, 0x4D, 0x47, 0x48, 0x49,
    0x1B, 0x27, 0x28, 0x33, 0x34, 0x35] ++
  List.replicate 21 0

def scancodesBreak : List UInt8 :=
  [0x9E, 0xB0, 0xAE, 0xA0, 0x92, 0xA1, 0xA2, 0xA3, 0x97, 0xA4, 0xA5, 0xA6, 0xB2, 0xB1, 0x98, 0x99,
    0x90, 0x93, 0x9F, 0x94, 0x96, 0xAF, 0x91, 0xAD, 0x95, 0xAC, 0x8B, 0x82, 0x83, 0x84, 0x85, 0x86,
    0x87, 0x88, 0x89, 0x8A, 0xA9, 0x8C, 0x8D, 0xAB, 0x8E, 0xB9, 0x8F, 0xBA, 0xAA, 0x9D, 0, 0xB8,
    0xB6, 0, 0, 0, 0, 0x9C, 0x81, 0xBB, 0xBC, 0xBD, 0xBE, 0xBF, 0xC0, 0xC1, 0xC2, 0xC3, 0xC4, 0xD7,
    0xD8, 0, 0xC6, 0, 0x9A] ++
  List.replicate 10 0 ++
  [0xC5, 0, 0xB7, 0xCA, 0xCE, 0, 0xD3, 0xD2, 0xCF, 0xD0, 0xD1, 0xCB, 0xCC, 0xCD, 0xC7, 0xC8, 0xC9,
    0x9B, 0xA7, 0xA8, 0xB3, 0xB4, 0xB5] ++
  List.replicate 21 0

def scancodesMakeEscaped : List UInt8 :=
  List.replicate 46 0 ++
  [0x5B, 0, 0, 0x1D, 0x5C, 0x38, 0x5D] ++
  List.replicate 18 0 ++
  [0x52, 0x47, 0x49, 0x53, 0x4F, 0x51, 0x48, 0x4B, 0x50, 0x4D, 0, 0x35, 0, 0, 0, 0x1C] ++
  List.replicate 17 0 ++
  [0x5E, 0x5F, 0x63, 0x19, 0x10, 0x24, 0x22, 0x20, 0x30, 0x2E, 0x6D, 0x6C, 0x21, 0x6B, 0x65, 0x32,
    0x6A, 0x69, 0x68, 0x67, 0x66]

def scancodesBreakEscape : List UInt8 :=
  List.replicate 46 0 ++
  [0xDB, 0, 0, 0x9D, 0xDC, 0xB8, 0xDD] ++
  List.replicate 18 0 ++
  [0xD2, 0x97, 0xC9, 0xD3, 0xCF, 0xD1, 0xC8, 0xCB, 0xD0, 0xCD, 0, 0xB5, 0, 0, 0, 0x9C] ++
  List.replicate 17 0 ++
  [0xDE, 0xDF, 0xE3, 0x99, 0x90, 0xA4, 0xA2, 0xA0, 0xB0, 0xAE, 0xED, 0xEC, 0xA1, 0xEB, 0xE5, 0xB2,
    0xEA, 0xE9, 0xE8, 0xE7, 0xE6]

inductive KeyboardDriverState where
  | idle
  | processingEscapeCode
  deriving DecidableEq, Repr

/-- The number of bytes that have been read from the port, and the state. -/
structure Reader where
  position : Nat
  state : KeyboardDriverState
  deriving DecidableEq, Repr

/-- The first key with this code in the make table or, failing that, in the break table. -/
def find (escape : Bool) (scancode : UInt8) : Option (Nat × KeycodeKeyState) :=
  let search (scancodes : List UInt8) (state : KeycodeKeyState) :=
    (scancodes.findIdx? (scancode == ·)).map (·, state)
  search (if escape then scancodesMakeEscaped else scancodesMake) .pressed <|>
    search (if escape then scancodesBreakEscape else scancodesBreak) .released

section
variable (port : Nat → UInt8)

def clearInput (reader : Reader) : Reader := { reader with position := reader.position + maxScancodeBytes }

/-- Read one byte. The key is missing if the scan code is not complete. -/
def stepStateMachine (reader : Reader) : Reader × Option (Nat × KeycodeKeyState) :=
  let scancode := port reader.position
  let next := { reader with position := reader.position + 1 }
  if scancode = 0xE0 then ({ next with state := .processingEscapeCode }, none)
  else match find (reader.state = .processingEscapeCode) scancode with
    | some event => (next, some event)
    | none => (clearInput next, none)

/-- The loop of `on_interrupt`, with the states in which it reads a byte. -/
def readEvent (reader : Reader) : Nat → List Reader × Option (Nat × KeycodeKeyState)
  | 0 => ([], none)
  | rest + 1 =>
    match stepStateMachine port reader with
    | (_, some event) => ([reader], some event)
    | (next, none) => (reader :: (readEvent next rest).1, (readEvent next rest).2)

/-- The states in which `on_interrupt` reads a byte. -/
def visited : List Reader := (readEvent port ⟨0, .idle⟩ maxScancodeBytes).1

/-- The byte is looked up in the tables. -/
def LooksUp (reader : Reader) : Prop := port reader.position ≠ 0xE0

/-- The byte before this one is 0xE0. -/
def Follows (position : Nat) : Prop := 0 < position ∧ port (position - 1) = 0xE0

instance (position : Nat) : Decidable (Follows port position) := inferInstanceAs (Decidable (_ ∧ _))

/-- The byte is looked up in the escaped tables exactly if the byte before it is 0xE0. -/
def Framed (reader : Reader) : Prop :=
  reader.state = .processingEscapeCode ↔ Follows port reader.position

/-- Where a call reads its bytes, from this one on, if the byte before each says which tables it is
looked up in: it goes on behind 0xE0, and behind the six that are cleared after an unknown byte. -/
def positions : Nat → Nat → List Nat
  | 0, _ => []
  | rest + 1, position => position ::
    if port position = 0xE0 then positions rest (position + 1)
    else match find (Follows port position) (port position) with
      | some _ => []
      | none => positions rest (position + 1 + maxScancodeBytes)

/-- Wherever input is cleared and the byte behind it is looked up, a byte read before was 0xE0
exactly if the last one that is cleared is. -/
def Recovers (done steps : List Nat) : Prop :=
  ∀ before position next after, steps = before ++ position :: next :: after →
    port position ≠ 0xE0 → port next ≠ 0xE0 →
      ((∃ earlier ∈ done ++ before, port earlier = 0xE0) ↔ port (position + maxScancodeBytes) = 0xE0)

variable {port} {reader next : Reader} {rest : Nat} {done : List Nat}

theorem recovers_cons {position next : Nat} {later : List Nat} :
    Recovers port done (position :: next :: later) ↔
      (port position ≠ 0xE0 → port next ≠ 0xE0 →
        ((∃ earlier ∈ done, port earlier = 0xE0) ↔ port (position + maxScancodeBytes) = 0xE0)) ∧
      Recovers port (done ++ [position]) (next :: later) := by
  constructor
  · intro recovers
    refine ⟨fun unknown lookup => ?_, fun before p q after split unknown lookup => ?_⟩
    · simpa using recovers [] position next later rfl unknown lookup
    · simpa using recovers (position :: before) p q after (by rw [split]; rfl) unknown lookup
  · rintro ⟨here, below⟩ before p q after split unknown lookup
    cases before with
    | nil =>
      obtain ⟨rfl, rest⟩ := List.cons.inj split
      obtain ⟨rfl, rfl⟩ := List.cons.inj rest
      simpa using here unknown lookup
    | cons first before =>
      obtain ⟨rfl, rest⟩ := List.cons.inj split
      simpa using below before p q after rest unknown lookup

/-- Only the byte that is read next can be looked up in the wrong tables. -/
theorem forall_cons_iff (framed : LooksUp port reader → Framed port reader)
    (here : (LooksUp port reader → LooksUp port next →
        ((∃ earlier ∈ done, port earlier = 0xE0) ↔
          port (reader.position + maxScancodeBytes) = 0xE0)) ↔
      (LooksUp port next → Framed port next))
    (after : (LooksUp port next → Framed port next) →
      ((∀ other ∈ (readEvent port next rest).1, LooksUp port other → Framed port other) ↔
        Recovers port (done ++ [reader.position]) (positions port rest next.position))) :
    (∀ other ∈ reader :: (readEvent port next rest).1, LooksUp port other → Framed port other) ↔
      Recovers port done (reader.position :: positions port rest next.position) := by
  rw [List.forall_mem_cons, and_iff_right framed]
  cases rest with
  | zero => simp [readEvent, positions, Recovers, List.cons_eq_append_iff]
  | succ rest =>
    have first : next ∈ (readEvent port next (rest + 1)).1 := by
      rw [readEvent]
      split <;> exact List.mem_cons_self
    obtain ⟨later, steps⟩ : ∃ later, positions port (rest + 1) next.position = next.position :: later :=
      ⟨_, rfl⟩
    rw [steps] at after ⊢
    rw [recovers_cons]
    by_cases proceeds : LooksUp port next → Framed port next
    · rw [after proceeds]
      exact (and_iff_right (here.mpr proceeds)).symm
    · exact iff_of_false (fun all => proceeds (all next first)) (fun all => proceeds (here.mp all.1))

/-- Until a byte is looked up in the wrong tables, the state says whether a byte was 0xE0. -/
theorem readEvent_frames_iff
    (seen : reader.state = .processingEscapeCode ↔ ∃ earlier ∈ done, port earlier = 0xE0)
    (framed : LooksUp port reader → Framed port reader) :
    (∀ other ∈ (readEvent port reader rest).1, LooksUp port other → Framed port other) ↔
      Recovers port done (positions port rest reader.position) := by
  induction rest generalizing reader done with
  | zero => simp [readEvent, positions, Recovers]
  | succ rest ih =>
    rw [readEvent, stepStateMachine, positions]
    by_cases escape : port reader.position = 0xE0
    · simp only [escape, if_true]
      have follows : Follows port (reader.position + 1) := ⟨Nat.succ_pos _, escape⟩
      refine forall_cons_iff framed
        (iff_of_true (fun lookup => absurd escape lookup) fun _ => iff_of_true rfl follows) (ih ?_ ·)
      simp [escape]
    · simp only [if_neg escape, ← show decide (reader.state = .processingEscapeCode) =
        decide (Follows port reader.position) from decide_eq_decide.mpr (framed escape)]
      cases found : find (reader.state = .processingEscapeCode) (port reader.position) with
      | some event =>
        simp only [List.forall_mem_singleton]
        exact iff_of_true framed (by simp [Recovers, List.cons_eq_append_iff])
      | none =>
        refine forall_cons_iff framed ?_ (ih ?_ ·)
        · refine (forall_prop_of_true escape).trans (imp_congr_right fun _ => ?_)
          rw [← seen]
          exact iff_congr Iff.rfl (and_iff_right (Nat.succ_pos _)).symm
        · simpa [clearInput, escape] using seen

/-- The bytes are framed exactly if the stream lets every call of `clear_input` be recovered from. -/
theorem framing_iff (port : Nat → UInt8) :
    (∀ reader ∈ visited port, LooksUp port reader → Framed port reader) ↔
      Recovers port [] (positions port maxScancodeBytes 0) := by
  apply readEvent_frames_iff
  · simp
  · intro _
    exact iff_of_false nofun fun before => absurd before.1 (Nat.lt_irrefl 0)

end

/-- After the unknown sequence 0xE0 0x01, the code of a key is looked up in the escaped tables. -/
theorem escape_survives_clear :
    let port (i : Nat) : UInt8 := [0xE0, 0x01, 0x01, 0x01, 0x01, 0x01, 0x01, 0x01, 0x1E].getD i 0
    ⟨8, .processingEscapeCode⟩ ∈ visited port ∧ port 8 = 0x1E ∧ port 7 = 0x01 := by
  decide +kernel

end FlapjackOS.Drivers.PS2KeyboardDevice
