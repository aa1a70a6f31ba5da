import FlapjackOS.Terminal.LineEditor
import Mathlib.Data.List.GetD

namespace FlapjackOS.Terminal

open Runs

/-- The line that is edited. `browsed` is the history cursor. -/
structure Draft where
  done : Bool
  input : List UInt8
  stash : List UInt8
  cursor : Nat
  browsed : Int

namespace Draft

/-- The entry of the history, or the stashed line. -/
def recalled (history : List (List UInt8)) (draft : Draft) (browsed : Int) : List UInt8 :=
  if browsed = -1 then draft.stash else history.getD browsed.toNat []

def recallLine (history : List (List UInt8)) (draft : Draft) (browsed : Int) : Draft × List Stroke :=
  let line := draft.recalled history browsed
  ({ draft with input := line, cursor := line.length, browsed },
    .moveCursorToEnd :: List.replicate draft.input.length (.putchar Ascii.backspace) ++ line.map .putchar)

def pressLeft (draft : Draft) : Draft × List Stroke :=
  if 0 < draft.cursor then ({ draft with cursor := draft.cursor - 1 }, [.moveCursorLeft]) else (draft, [])

def pressRight (draft : Draft) : Draft × List Stroke :=
  if draft.cursor < draft.input.length then
    ({ draft with cursor := draft.cursor + 1 }, [.moveCursorRight])
  else (draft, [])

def pressDown (history : List (List UInt8)) (draft : Draft) : Draft × List Stroke :=
  if draft.browsed ≠ -1 then draft.recallLine history (draft.browsed - 1) else (draft, [])

def stashed (draft : Draft) : Draft := if draft.browsed = -1 then { draft with stash := draft.input } else draft

def pressUp (history : List (List UInt8)) (draft : Draft) : Draft × List Stroke :=
  if draft.browsed < (history.length : Int) - 1 then draft.stashed.recallLine history (draft.browsed + 1)
  else (draft, [])

/-- A backspace that does not pass the start of the line. -/
def pressBackspace (draft : Draft) : Draft × List Stroke :=
  if 0 < draft.input.length then
    ({ draft with input := draft.input.eraseIdx (draft.cursor - 1), cursor := draft.cursor - 1 },
      [.putchar Ascii.backspace])
  else (draft, [])

def pressCharacter (draft : Draft) (ch : UInt8) : Draft × List Stroke :=
  if (isprint ch ∨ ch = Ascii.tab) ∧ draft.input.length < lineCapacity then
    ({ draft with input := draft.input.insertIdx draft.cursor ch, cursor := draft.cursor + 1 }, [.putchar ch])
  else (draft, [])

def handle (history : List (List UInt8)) (draft : Draft) (event : KeyboardEvent) : Draft × List Stroke :=
  if event.state ≠ .pressed then (draft, [])
  else match event.key with
    | .numpad4 | .leftArrow => draft.pressLeft
    | .numpad6 | .rightArrow => draft.pressRight
    | .numpad2 | .downArrow => draft.pressDown history
    | .numpad8 | .upArrow => draft.pressUp history
    | .other _ =>
      if event.ch = Ascii.backspace then draft.pressBackspace
      else if event.ch = Ascii.newline then ({ draft with done := true }, [.putchar Ascii.newline])
      else draft.pressCharacter event.ch

end Draft

/-- A history, with the characters of its entries, the latest first. -/
structure History where
  list : LinkedList Line
  entries : List (List UInt8)
  lists : list.Lists RingBuffer.Holds entries

def History.nil : History := ⟨.nil, [], LinkedList.lists_nil⟩

theorem History.add (history : History) {line : Line} {chars : List UInt8} (holds : line.Holds chars) :
    ∃ next : History, LineEditor.addHistory history.list line = some next.list ∧
      next.entries = chars :: history.entries := by
  obtain ⟨value, left, moves, moved, -⟩ := RingBuffer.Holds.takeOver RingBuffer.holds_nil holds
  obtain ⟨copy, copies : RingBuffer.nil.pushCopies value 0 _ = _, copied⟩ :=
    RingBuffer.holds_nil.pushCopies (List.nil_append chars ▸ moved) (by simpa using moved.fits)
  refine ⟨⟨_, _, history.lists.pushFront copied⟩, ?_, rfl⟩
  rw [LineEditor.addHistory, RingBuffer.moveConstruct, moves]
  simp [RingBuffer.copyConstruct, moved.size, copies]

namespace LineEditor

/-- The editor's variables hold this draft, with the cursor inside the input. -/
structure Represents (history : History) (editor : LineEditor) (draft : Draft) : Prop where
  recorded : editor.history = history.list
  done : editor.haveANewline = draft.done
  input : editor.userInput.Holds draft.input
  stash : editor.stashedUserInput.Holds draft.stash
  cursor : editor.linearCursor = draft.cursor
  browsed : editor.historyCursor = draft.browsed
  inside : draft.cursor ≤ draft.input.length
  range : -1 ≤ draft.browsed ∧ draft.browsed < history.entries.length

/-- A backspace at the start of the line finds it empty. -/
def BackspaceInside (editor : LineEditor) (event : KeyboardEvent) : Prop :=
  editor.haveANewline = false → event.state = .pressed → event.key.isDefault = true →
    event.ch = Ascii.backspace → 0 < editor.userInput.size → 0 < editor.linearCursor

instance (editor : LineEditor) (event : KeyboardEvent) : Decidable (editor.BackspaceInside event) :=
  inferInstanceAs (Decidable (_ → _))

section
variable {history : History} {editor : LineEditor} {draft : Draft}

theorem typeLine_eq {line : Line} {done rest : List UInt8} (holds : line.Holds (done ++ rest)) :
    typeLine line done.length rest.length = some (rest.map .putchar) := by
  induction rest generalizing done with
  | nil => rfl
  | cons ch rest ih =>
    have read : line.at? done.length = some ch := holds.at_append
    rw [List.append_cons] at holds
    have later := ih holds
    rw [List.length_append, List.length_singleton] at later
    simp [typeLine, read, later]

/-- The input is stashed when the browsing starts. -/
theorem Represents.stashed (represents : Represents history editor draft) :
    ∃ stashedUserInput, editor.stash = some stashedUserInput ∧
      Represents history { editor with stashedUserInput } draft.stashed := by
  have browsed := represents.browsed
  by_cases typed : draft.browsed = -1
  · obtain ⟨copy, assigned, result⟩ := represents.stash.assign represents.input
    refine ⟨copy, by rw [LineEditor.stash, if_pos (browsed.trans typed), assigned], ?_⟩
    rw [Draft.stashed, if_pos typed]
    exact ⟨represents.recorded, represents.done, represents.input, result, represents.cursor, browsed,
      represents.inside,
      represents.range⟩
  · refine ⟨_, if_neg (fun impossible => typed (browsed.symm.trans impossible)), ?_⟩
    rw [Draft.stashed, if_neg typed]
    exact represents

section
variable (represents : Represents history editor draft)
include represents

theorem Represents.recalled {target : Int} (range : -1 ≤ target ∧ target < history.entries.length) :
    ∃ line, LineEditor.recalled { editor with historyCursor := target } = some line ∧
      line.Holds (draft.recalled history.entries target) := by
  by_cases typed : target = -1
  · exact ⟨_, if_pos typed, by rw [Draft.recalled, if_pos typed]; exact represents.stash⟩
  · obtain ⟨index, rfl⟩ : ∃ index : Nat, target = index := Int.eq_ofNat_of_zero_le (by omega)
    have inside : index < history.entries.length := Int.ofNat_lt.mp range.2
    obtain ⟨line, found, holds⟩ := history.lists.at inside
    refine ⟨line, by rw [LineEditor.recalled, if_neg typed, represents.recorded, found], ?_⟩
    rwa [Draft.recalled, if_neg typed, Int.toNat_natCast, List.getD_eq_getElem _ _ inside]

theorem Represents.recallLine {target : Int} (range : -1 ≤ target ∧ target < history.entries.length) :
    ∃ next strokes, LineEditor.recallLine { editor with historyCursor := target } = some (next, strokes) ∧
      Represents history next (draft.recallLine history.entries target).1 ∧
      eraseLine editor.userInput ++ strokes = (draft.recallLine history.entries target).2 := by
  obtain ⟨line, found, holds⟩ := represents.recalled range
  obtain ⟨userInput, assigned, result⟩ := represents.input.assign holds
  have whole : userInput.Holds ([] ++ draft.recalled history.entries target) := result
  have typed : typeLine userInput 0 userInput.size = some ((draft.recalled history.entries target).map .putchar) := by
    rw [result.size]
    exact typeLine_eq whole
  have recalls : LineEditor.recallLine { editor with historyCursor := target } =
      some ({ editor with userInput, linearCursor := userInput.size, historyCursor := target },
        (draft.recalled history.entries target).map .putchar) := by
    simp [LineEditor.recallLine, found, assigned, typed]
  refine ⟨_, _, recalls, ?_, ?_⟩
  · refine ⟨represents.recorded, represents.done, result, represents.stash, ?_, rfl, Nat.le_refl _, range⟩
    simp [Draft.recallLine, result.size]
  · simp [eraseLine, Draft.recallLine, represents.input.size]

theorem Represents.pressUp :
    ∃ next, editor.pressUp = some (next, (draft.pressUp history.entries).2) ∧
      Represents history next (draft.pressUp history.entries).1 := by
  have browsed := represents.browsed
  have range := represents.range
  have length : editor.history.count = history.entries.length := by rw [represents.recorded, history.lists.count]
  by_cases more : draft.browsed < (history.entries.length : Int) - 1
  · have here : editor.historyCursor < (editor.history.count : Int) - 1 := by omega
    have bounded : min (editor.historyCursor + 1) ((editor.history.count : Int) - 1) = draft.browsed + 1 := by omega
    have range : -1 ≤ draft.browsed + 1 ∧ draft.browsed + 1 < history.entries.length := by omega
    obtain ⟨stashedUserInput, stashes, kept⟩ := represents.stashed
    obtain ⟨next, strokes, recalls, result, same⟩ := kept.recallLine range
    refine ⟨next, ?_, by rwa [Draft.pressUp, if_pos more]⟩
    rw [LineEditor.pressUp, if_pos here, stashes, bounded, Draft.pressUp, if_pos more, ← same]
    exact congrArg (Option.bind · _) recalls
  · have here : ¬ editor.historyCursor < (editor.history.count : Int) - 1 := by omega
    rw [LineEditor.pressUp, Draft.pressUp, if_neg here, if_neg more]
    exact ⟨editor, rfl, represents⟩

theorem Represents.pressDown :
    ∃ next, editor.pressDown = some (next, (draft.pressDown history.entries).2) ∧
      Represents history next (draft.pressDown history.entries).1 := by
  have browsed := represents.browsed
  have range := represents.range
  by_cases browsing : draft.browsed ≠ -1
  · have bounded : max (editor.historyCursor - 1) (-1) = draft.browsed - 1 := by omega
    obtain ⟨next, strokes, recalls, result, same⟩ :=
      represents.recallLine (show -1 ≤ draft.browsed - 1 ∧ draft.browsed - 1 < history.entries.length by omega)
    refine ⟨next, ?_, by rwa [Draft.pressDown, if_pos browsing]⟩
    rw [LineEditor.pressDown, if_pos (browsed ▸ browsing), bounded, Draft.pressDown, if_pos browsing, ← same]
    exact congrArg (Option.bind · _) recalls
  · rw [LineEditor.pressDown, Draft.pressDown, if_neg (browsed ▸ browsing), if_neg browsing]
    exact ⟨editor, rfl, represents⟩

end

section
variable (represents : Represents history editor draft)
include represents

theorem Represents.pressLeft :
    ∃ next, some editor.pressLeft = some (next, draft.pressLeft.2) ∧
      Represents history next draft.pressLeft.1 := by
  obtain ⟨recorded, done, input, stash, cursor, browsed, inside, range⟩ := represents
  by_cases moves : 0 < draft.cursor
  · have here : editor.linearCursor > 0 := by omega
    rw [LineEditor.pressLeft, Draft.pressLeft, if_pos here, if_pos moves]
    exact ⟨_, rfl, recorded, done, input, stash, by simp; omega, browsed, by simp; omega, range⟩
  · have here : ¬ editor.linearCursor > 0 := by omega
    rw [LineEditor.pressLeft, Draft.pressLeft, if_neg here, if_neg moves]
    exact ⟨_, rfl, recorded, done, input, stash, cursor, browsed, inside, range⟩

theorem Represents.pressRight :
    ∃ next, some editor.pressRight = some (next, draft.pressRight.2) ∧
      Represents history next draft.pressRight.1 := by
  obtain ⟨recorded, done, input, stash, cursor, browsed, inside, range⟩ := represents
  have size := input.size
  by_cases moves : draft.cursor < draft.input.length
  · have here : editor.linearCursor < editor.userInput.size := by omega
    rw [LineEditor.pressRight, Draft.pressRight, if_pos here, if_pos moves]
    exact ⟨_, rfl, recorded, done, input, stash, by simp; omega, browsed, by simp; omega, range⟩
  · have here : ¬ editor.linearCursor < editor.userInput.size := by omega
    rw [LineEditor.pressRight, Draft.pressRight, if_neg here, if_neg moves]
    exact ⟨_, rfl, recorded, done, input, stash, cursor, browsed, inside, range⟩

theorem Represents.pressBackspace (inside : 0 < draft.input.length → 0 < draft.cursor) :
    ∃ next, editor.pressBackspace = some (next, draft.pressBackspace.2) ∧
      Represents history next draft.pressBackspace.1 := by
  have size := represents.input.size
  have cursor := represents.cursor
  have bound := represents.inside
  by_cases occupied : 0 < draft.input.length
  · have positive := inside occupied
    have before : editor.linearCursor - 1 = (draft.cursor - 1 : Nat) := by omega
    have place : draft.cursor - 1 < draft.input.length := by omega
    obtain ⟨userInput, removes, result⟩ := represents.input.remove place
    refine ⟨{ editor with userInput, linearCursor := (draft.cursor - 1 : Nat) }, ?_, ?_⟩
    · rw [LineEditor.pressBackspace, Draft.pressBackspace, if_pos (by omega), if_pos occupied]
      simp [before, removes]
    · rw [Draft.pressBackspace, if_pos occupied]
      refine ⟨represents.recorded, represents.done, result, represents.stash, rfl, represents.browsed, ?_,
        represents.range⟩
      simp [List.length_eraseIdx_of_lt place]
      omega
  · rw [LineEditor.pressBackspace, Draft.pressBackspace, if_neg (by omega), if_neg occupied]
    exact ⟨editor, rfl, represents⟩

theorem Represents.pressCharacter (ch : UInt8) :
    ∃ next, editor.pressCharacter ch = some (next, (draft.pressCharacter ch).2) ∧
      Represents history next (draft.pressCharacter ch).1 := by
  have size := represents.input.size
  by_cases typed : (isprint ch ∨ ch = Ascii.tab) ∧ draft.input.length < lineCapacity
  · obtain ⟨userInput, inserts, result⟩ := represents.input.insert typed.2 represents.inside ch
    refine ⟨{ editor with userInput, linearCursor := editor.linearCursor + 1 }, ?_, ?_⟩
    · rw [LineEditor.pressCharacter, Draft.pressCharacter, size, if_pos typed, if_pos typed, represents.cursor, inserts]
      rfl
    · rw [Draft.pressCharacter, if_pos typed]
      refine ⟨represents.recorded, represents.done, result, represents.stash, ?_, represents.browsed, ?_,
        represents.range⟩
      · simp [represents.cursor]
      · rw [List.length_insertIdx_of_le_length represents.inside]
        exact Nat.succ_le_succ represents.inside
  · rw [LineEditor.pressCharacter, Draft.pressCharacter, size, if_neg typed, if_neg typed]
    exact ⟨editor, rfl, represents⟩

end

/-- An event is handled as for the draft, unless it moves the cursor past the start of the line. -/
theorem Represents.handle (represents : Represents history editor draft)
    (running : draft.done = false) (inside : editor.BackspaceInside event) :
    ∃ next, editor.handle event = some (next, (draft.handle history.entries event).2) ∧
      Represents history next (draft.handle history.entries event).1 := by
  by_cases pressed : event.state = .pressed
  · rw [LineEditor.handle, Draft.handle, if_neg (not_not.mpr pressed), if_neg (not_not.mpr pressed)]
    cases key : event.key with
    | numpad4 | leftArrow => exact represents.pressLeft
    | numpad6 | rightArrow => exact represents.pressRight
    | numpad2 | downArrow => exact represents.pressDown
    | numpad8 | upArrow => exact represents.pressUp
    | other code =>
      by_cases erases : event.ch = Ascii.backspace
      · simp only [erases, if_true]
        refine represents.pressBackspace fun occupied => ?_
        have positive := inside (represents.done.trans running) pressed (by rw [key]; rfl) erases
          (represents.input.size ▸ occupied)
        have cursor := represents.cursor
        omega
      · by_cases ends : event.ch = Ascii.newline
        · simp only [ends, if_true]
          exact ⟨_, rfl, represents.recorded, rfl, represents.input, represents.stash, represents.cursor,
            represents.browsed, represents.inside, represents.range⟩
        · simp only [erases, ends, if_false]
          exact represents.pressCharacter event.ch
  · rw [LineEditor.handle, Draft.handle, if_pos pressed, if_pos pressed]
    exact ⟨editor, rfl, represents⟩

/-- A backspace at the start of a line that is not empty moves the cursor out of the line. -/
theorem Represents.handle_outside (represents : Represents history editor draft)
    (outside : ¬ editor.BackspaceInside event) :
    editor.haveANewline = false ∧
      editor.handle event = some ({ editor with linearCursor := -1 }, []) := by
  obtain ⟨running, pressed, key, erases, occupied, start⟩ :
      editor.haveANewline = false ∧ event.state = .pressed ∧ event.key.isDefault = true ∧
        event.ch = Ascii.backspace ∧ 0 < editor.userInput.size ∧ ¬ 0 < editor.linearCursor := by
    simpa only [BackspaceInside, Classical.not_imp] using outside
  have cursor := represents.cursor
  have before : editor.linearCursor - 1 = -1 := by omega
  refine ⟨running, ?_⟩
  rw [LineEditor.handle, if_neg (not_not.mpr pressed)]
  cases shape : event.key with
  | other code => simp [erases, LineEditor.pressBackspace, occupied, before]
  | _ =>
    rw [shape] at key
    cases key

/-- The editor holds some draft. -/
def Editing (history : History) (editor : LineEditor) : Prop :=
  ∃ draft, Represents history editor draft

theorem represents_start : Represents history (start history.list) ⟨false, [], [], 0, -1⟩ :=
  ⟨rfl, rfl, RingBuffer.holds_nil, RingBuffer.holds_nil, rfl, rfl, Nat.le_refl _, by simp; omega⟩

theorem Editing.listen (editing : Editing history editor)
    (inside : editor.BackspaceInside event) :
    ∃ next, editor.listen event = some next ∧ Editing history next := by
  obtain ⟨draft, represents⟩ := editing
  by_cases finished : editor.haveANewline = true
  · exact ⟨editor, if_pos finished, draft, represents⟩
  · have running : draft.done = false := by
      rw [← represents.done]
      exact Bool.eq_false_iff.mpr finished
    obtain ⟨next, handles, result⟩ := represents.handle running inside
    refine ⟨next, ?_, _, result⟩
    rw [LineEditor.listen, if_neg finished, handles]
    rfl

end

/-- The cursor is inside the input, and the input within its capacity. -/
def CursorInside (editor : LineEditor) : Prop :=
  0 ≤ editor.linearCursor ∧ editor.linearCursor ≤ editor.userInput.size ∧
    editor.userInput.size ≤ lineCapacity

/-- For every history, no assertion fails and the cursor stays inside the input if and only if no
backspace comes at the start of a line that is not empty. -/
theorem cursor_inside_iff (history : History) (events : List KeyboardEvent) :
    Always listen CursorInside (start history.list) events ↔
      Legal listen BackspaceInside (start history.list) events := by
  have possible : Legal listen (fun _ _ => True) (start history.list) events := legal_of_forall fun _ _ => trivial
  have editing : Editing history (start history.list) := ⟨_, represents_start⟩
  refine always_iff_legal ?_ ?_ ?_ possible editing
  · rintro editor ⟨draft, represents⟩
    have cursor := represents.cursor
    have inside := represents.inside
    have size := represents.input.size
    have fits := represents.input.fits
    exact ⟨by omega, by omega, by omega⟩
  · intro editor event editing _ inside
    exact editing.listen inside
  · rintro editor event next ⟨draft, represents⟩ _ outside stepped inside
    obtain ⟨running, handles⟩ := represents.handle_outside outside
    rw [LineEditor.listen, running, if_neg Bool.false_ne_true, handles] at stepped
    cases stepped
    exact absurd inside.1 (show ¬ (0 : Int) ≤ -1 by decide)

/-- The key with this code, which types a character, is pressed. -/
def press (code : Nat) (ch : UInt8) : KeyboardEvent := ⟨.other code, .pressed, ch⟩

/-- After `a`, the left arrow and backspace, the next character is inserted at index -1. -/
theorem backspace_leaves_line :
    run listen (start .nil) [press 0 97, ⟨.leftArrow, .pressed, 0⟩, press 40 8, press 1 98] = none := by
  decide +kernel

end LineEditor

end FlapjackOS.Terminal
