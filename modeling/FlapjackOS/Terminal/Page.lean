import FlapjackOS.Machine.Simulation
import FlapjackOS.Terminal.TextTerminal

namespace FlapjackOS.Terminal

open Simulation

/-- A character that is put on a row as it is. -/
def Plain (ch : UInt8) : Prop := isprint ch = true ∨ ch = Ascii.tab

instance : DecidablePred Plain := fun _ => inferInstanceAs (Decidable (_ ∨ _))

theorem Plain.normal (plain : Plain ch) : ch ≠ 0 ∧ ch ≠ Ascii.newline ∧ ch ≠ Ascii.backspace := by
  refine ⟨?_, ?_, ?_⟩ <;>
  · rintro rfl
    revert plain
    decide

structure Page where
  display : VGATextDisplayDevice
  rows : List (List UInt8)
  x : Nat
  y : Nat

namespace Page

section
variable (page : Page)

/-- The row with this index. The one behind the last row is the first. -/
def rowAt (index : Nat) : List UInt8 := page.rows.getD (index % consoleHeight) []

/-- The row that the cursor is on. -/
def row : List UInt8 := page.rowAt page.y

def setRow (row : List UInt8) : Page :=
  { page with rows := page.rows.set (page.y % consoleHeight) row }

def moveTo (x y : Nat) : Page := { page with x, y }

/-- Draw one row. -/
def redraw (index : Nat) : Page :=
  { page with display := TextLine.drawn page.display index (page.rowAt index) }

/-- The display column of the cursor. -/
def column : Nat :=
  (page.row.take page.x).foldl (fun col ch => col + stepForChar page.display.getTabWidth col ch) 0

/-- Place the cursor of the display. -/
def settle : Page :=
  { page with display := page.display.setCursorPosition ⟨page.column, page.y⟩ }

def redrawRows (page : Page) (index : Nat) : Nat → Page
  | 0 => page
  | rest + 1 => (page.redraw index).redrawRows (index + 1) rest

/-- The rows move up by one, and an empty row follows. -/
def shift : Page := { page with rows := page.rows.tail ++ [[]], y := consoleHeight - 1 }

def scroll : Page := page.shift.redrawRows 0 consoleHeight

/-- Insert a character at the cursor, unless the row is full. -/
def insert (ch : UInt8) : Page :=
  (page.setRow (if page.row.length < consoleWidth then page.row.insertIdx page.x ch else page.row)).redraw page.y

def advance : Page :=
  (if consoleWidth ≤ page.x + 1 then page.moveTo 0 (page.y + 1) else page.moveTo (page.x + 1) page.y).settle

/-- The cursor must be inside its row once the page has been scrolled. -/
def put (ch : UInt8) : Option Page :=
  let page := if consoleHeight ≤ page.y then page.scroll else page
  if page.x ≤ page.row.length then some (page.insert ch).advance else none

def erase : Page :=
  let page := page.moveTo (page.x - 1) page.y
  (page.setRow (page.row.eraseIdx page.x)).redraw page.y

def putchar (ch : UInt8) : Option Page :=
  if ch = 0 then some page.settle
  else if ch = Ascii.newline then if page.y < consoleHeight then some (page.moveTo 0 (page.y + 1)).settle else none
  else if ch = Ascii.backspace then some page.erase.settle
  else (page.put ch).map settle

def stroke : Stroke → Option Page
  | .putchar ch => page.putchar ch
  | .moveCursorLeft => some (page.moveTo (page.x - 1) page.y).settle
  | .moveCursorRight => some (page.moveTo (min (page.x + 1) page.row.length) page.y).settle
  | .moveCursorToEnd => some (page.moveTo page.row.length page.y).settle

end

section
variable (page : Page)
include page

@[simp] theorem settle_rows : page.settle.rows = page.rows := rfl
@[simp] theorem settle_x : page.settle.x = page.x := rfl
@[simp] theorem settle_y : page.settle.y = page.y := rfl
@[simp] theorem settle_row : page.settle.row = page.row := rfl
@[simp] theorem moveTo_rows (x y : Nat) : (page.moveTo x y).rows = page.rows := rfl
@[simp] theorem moveTo_x (x y : Nat) : (page.moveTo x y).x = x := rfl
@[simp] theorem moveTo_y (x y : Nat) : (page.moveTo x y).y = y := rfl

theorem redrawRows_text (index rest : Nat) :
    (page.redrawRows index rest).rows = page.rows ∧ (page.redrawRows index rest).x = page.x ∧
      (page.redrawRows index rest).y = page.y := by
  induction rest generalizing page index with
  | zero => exact ⟨rfl, rfl, rfl⟩
  | succ rest ih => exact ih (page.redraw index) (index + 1)

@[simp] theorem scroll_rows : page.scroll.rows = page.rows.tail ++ [[]] :=
  (redrawRows_text _ 0 consoleHeight).1

@[simp] theorem scroll_x : page.scroll.x = page.x := (redrawRows_text _ 0 consoleHeight).2.1

@[simp] theorem scroll_y : page.scroll.y = consoleHeight - 1 :=
  (redrawRows_text _ 0 consoleHeight).2.2

end

/-- There is one row for each row of the display, and the cursor is in its row. -/
structure Proper (page : Page) : Prop where
  count : page.rows.length = consoleHeight
  fits : ∀ row ∈ page.rows, row.length ≤ consoleWidth
  lowest : page.y ≤ consoleHeight
  inside : page.x ≤ page.row.length

section
variable {page next : Page}

theorem mod_consoleHeight_lt (index : Nat) : index % consoleHeight < consoleHeight := Nat.mod_lt _ (by decide)

section
variable (count : page.rows.length = consoleHeight)
include count

theorem rowAt_mem (index : Nat) : page.rowAt index ∈ page.rows := by
  have inside : index % consoleHeight < page.rows.length := count ▸ mod_consoleHeight_lt index
  rw [rowAt, List.getD, List.getElem?_eq_getElem inside]
  exact List.getElem_mem inside

theorem setRow_row (row : List UInt8) : (page.setRow row).row = row := by
  have inside : page.y % consoleHeight < page.rows.length := count ▸ mod_consoleHeight_lt page.y
  simp [Page.row, rowAt, setRow, inside]

theorem rowAt_setRow (above : page.y < consoleHeight) (bound : index < consoleHeight)
    (row : List UInt8) :
    (page.setRow row).rowAt index = if index = page.y then row else page.rowAt index := by
  have inside : index < page.rows.length := count ▸ bound
  rw [rowAt, rowAt, setRow, Nat.mod_eq_of_lt bound, Nat.mod_eq_of_lt above, List.getD, List.getElem?_set]
  by_cases here : page.y = index
  · simp [here, inside]
  · simp [here, Ne.symm here]

theorem rowAt_scroll (bound : index < consoleHeight) :
    page.scroll.rowAt index = if index + 1 < consoleHeight then page.rowAt (index + 1) else [] := by
  rw [rowAt, scroll_rows, Nat.mod_eq_of_lt bound, List.getD]
  split
  · next inside =>
    have kept : index < page.rows.tail.length := by
      rw [List.length_tail]
      omega
    rw [rowAt, Nat.mod_eq_of_lt inside, List.getElem?_append_left kept, List.getElem?_tail, List.getD]
  · next last =>
    have past : index = page.rows.tail.length := by
      rw [List.length_tail]
      omega
    simp [past]

theorem scroll_row : page.scroll.row = [] := by
  have last : (consoleHeight - 1) % consoleHeight = page.rows.tail.length := by
    rw [List.length_tail, count]
    rfl
  simp [Page.row, rowAt, last]

end

section
variable (proper : page.Proper)
include proper

theorem Proper.row_fits (index : Nat) : (page.rowAt index).length ≤ consoleWidth :=
  proper.fits _ (rowAt_mem proper.count index)

/-- A row that fits takes the place of the cursor's row. -/
theorem Proper.setRow {row : List UInt8} (fits : row.length ≤ consoleWidth)
    (inside : page.x ≤ row.length) : (page.setRow row).Proper := by
  refine ⟨by simpa [Page.setRow] using proper.count, fun other member => ?_, proper.lowest, ?_⟩
  · rcases List.mem_or_eq_of_mem_set member with member | rfl
    · exact proper.fits other member
    · exact fits
  · rwa [setRow_row proper.count]

theorem Proper.redraw (index : Nat) : (page.redraw index).Proper :=
  ⟨proper.count, proper.fits, proper.lowest, proper.inside⟩

theorem Proper.settle : page.settle.Proper :=
  ⟨proper.count, proper.fits, proper.lowest, proper.inside⟩

theorem Proper.moveTo {x y : Nat} (lowest : y ≤ consoleHeight) (inside : x ≤ (page.rowAt y).length) :
    (page.moveTo x y).Proper :=
  ⟨proper.count, proper.fits, lowest, inside⟩

/-- After scrolling, the cursor is inside the new row if it is at its start. -/
theorem Proper.shift (start : page.x = 0) : page.shift.Proper := by
  refine ⟨?_, fun row member => ?_, Nat.sub_le _ _, start ▸ Nat.zero_le _⟩
  · simp [Page.shift, proper.count]
    rfl
  · rcases List.mem_append.mp member with member | member
    · exact proper.fits row (List.mem_of_mem_tail member)
    · simp [List.mem_singleton.mp member]

theorem Proper.redrawRows (index rest : Nat) : (page.redrawRows index rest).Proper := by
  induction rest generalizing page index with
  | zero => exact proper
  | succ rest ih => exact ih (proper.redraw index) (index + 1)

theorem Proper.scroll (start : page.x = 0) : page.scroll.Proper :=
  (proper.shift start).redrawRows 0 consoleHeight

end

theorem insert_row (count : page.rows.length = consoleHeight) (ch : UInt8) :
    (page.insert ch).row =
      if page.row.length < consoleWidth then page.row.insertIdx page.x ch else page.row :=
  setRow_row count _

theorem Proper.insert (proper : page.Proper) (ch : UInt8) : (page.insert ch).Proper := by
  have inside := proper.inside
  have fits : page.row.length ≤ consoleWidth := proper.row_fits page.y
  refine (proper.setRow ?_ ?_).redraw page.y
  all_goals
    split
    · rw [List.length_insertIdx_of_le_length inside]
      omega
    · assumption

/-- Behind the character that was inserted the cursor is inside its row, or past the last column. -/
theorem Proper.insert_room (proper : page.Proper) (ch : UInt8)
    (before : (page.insert ch).x + 1 < consoleWidth) : (page.insert ch).x < (page.insert ch).row.length := by
  have inside := proper.inside
  change page.x + 1 < consoleWidth at before
  change page.x < _
  rw [insert_row proper.count]
  split
  · rw [List.length_insertIdx_of_le_length inside]
    omega
  · omega

theorem Proper.advance (proper : page.Proper) (lowest : page.y < consoleHeight)
    (inside : page.x + 1 < consoleWidth → page.x < page.row.length) : page.advance.Proper := by
  rw [Page.advance]
  refine Proper.settle ?_
  split
  · exact proper.moveTo lowest (Nat.zero_le _)
  · exact proper.moveTo (Nat.le_of_lt lowest) (inside (by omega))

theorem advance_x (page : Page) : page.advance.x = if consoleWidth ≤ page.x + 1 then 0 else page.x + 1 := by
  rw [Page.advance]
  split <;> rfl

theorem advance_y (page : Page) : page.advance.y = if consoleWidth ≤ page.x + 1 then page.y + 1 else page.y := by
  rw [Page.advance]
  split <;> rfl

theorem Proper.put (proper : page.Proper) (above : page.y < consoleHeight) (ch : UInt8) :
    page.put ch = some (page.insert ch).advance := by
  rw [Page.put, if_neg (Nat.not_le_of_lt above), if_pos proper.inside]

theorem Proper.put_below (proper : page.Proper) (below : consoleHeight ≤ page.y) (ch : UInt8) :
    page.put ch = if page.x = 0 then some (page.scroll.insert ch).advance else none := by
  rw [Page.put, if_pos below, scroll_row proper.count, scroll_x]
  simp

theorem stroke_plain (plain : Plain ch) : page.stroke (.putchar ch) = (page.put ch).map Page.settle := by
  obtain ⟨nonzero, notNewline, notBackspace⟩ := plain.normal
  rw [Page.stroke, Page.putchar, if_neg nonzero, if_neg notNewline, if_neg notBackspace]

theorem Proper.erase (proper : page.Proper) : page.erase.Proper := by
  have inside := proper.inside
  have fits : page.row.length ≤ consoleWidth := proper.row_fits page.y
  have moved : (page.moveTo (page.x - 1) page.y).Proper :=
    proper.moveTo proper.lowest (by change page.x - 1 ≤ page.row.length; omega)
  refine (moved.setRow ?_ ?_).redraw _
  · exact Nat.le_trans (List.length_eraseIdx_le _ _) fits
  · change page.x - 1 ≤ (page.row.eraseIdx (page.x - 1)).length
    rw [List.length_eraseIdx]
    split <;> omega

end

end Page

namespace UnlockedTextTerminal

/-- The terminal has this display, this cursor and these rows. -/
structure Mirrors (terminal : UnlockedTextTerminal) (page : Page) : Prop where
  display : terminal.display = page.display
  cursor : terminal.cursor = ⟨page.x, page.y⟩
  count : page.rows.length = consoleHeight
  lines : ∃ lines, terminal.lines.Holds lines ∧
    List.Forall₂ (fun line row => line.data.Holds row) lines page.rows

section
variable {terminal : UnlockedTextTerminal} {page : Page}

section
variable (mirrors : terminal.Mirrors page)
include mirrors

theorem Mirrors.cursor_x : terminal.cursor.x = page.x := by
  rw [mirrors.cursor]

theorem Mirrors.cursor_y : terminal.cursor.y = page.y := by
  rw [mirrors.cursor]

/-- A line is found at each index, also at the one behind the last row. -/
theorem Mirrors.stored (index : Nat) :
    ∃ lines line, terminal.lines.Holds lines ∧
      List.Forall₂ (fun line row => line.data.Holds row) lines page.rows ∧
      lines.length = consoleHeight ∧ lines[index % consoleHeight]? = some line ∧
      line.data.Holds (page.rowAt index) := by
  obtain ⟨lines, holds, rows⟩ := mirrors.lines
  have length : lines.length = consoleHeight := rows.length_eq.trans mirrors.count
  have place : index % consoleHeight < consoleHeight := Nat.mod_lt _ (by decide)
  have inside : index % consoleHeight < lines.length := by omega
  have below : index % consoleHeight < page.rows.length := by
    have := mirrors.count
    omega
  refine ⟨lines, _, holds, rows, length, List.getElem?_eq_getElem inside, ?_⟩
  simpa [Page.rowAt, List.getD, List.getElem?_eq_getElem below] using rows.get inside below

theorem Mirrors.line (bound : index ≤ consoleHeight) :
    ∃ line, terminal.lines.at? index = some line ∧ line.data.Holds (page.rowAt index) := by
  obtain ⟨lines, line, holds, _, length, found, stored⟩ := mirrors.stored index
  exact ⟨line, holds.at_eq (by omega) found, stored⟩

/-- The line of the cursor changes as its row does. -/
theorem Mirrors.modify (bound : page.y ≤ consoleHeight) {change : TextLine → Option TextLine}
    (changes : ∀ line : TextLine, line.data.Holds page.row → ∃ next, change line = some next ∧
      next.data.Holds changed) :
    ∃ lines, terminal.lines.modifyAt terminal.cursor.y change = some lines ∧
      (terminal.setLines lines).Mirrors (page.setRow changed) := by
  obtain ⟨lines, line, holds, rows, length, found, stored⟩ := mirrors.stored page.y
  obtain ⟨next, here, result⟩ := changes line stored
  obtain ⟨after, modified, kept⟩ := holds.modifyAt (by omega) found here
  rw [mirrors.cursor]
  refine ⟨after, modified, mirrors.display, mirrors.cursor, ?_, _, kept, ?_⟩
  · simpa [Page.setRow] using mirrors.count
  · exact Lists.forall₂_set rows result _

theorem Mirrors.redrawLine (bound : index ≤ consoleHeight) :
    ∃ after, terminal.redrawLine index = some after ∧ after.Mirrors (page.redraw index) := by
  obtain ⟨line, found, holds⟩ := mirrors.line bound
  obtain ⟨below, draws⟩ := TextLine.draw_eq holds terminal.display index
  refine ⟨_, by rw [UnlockedTextTerminal.redrawLine, if_pos (by omega), found]; simp [draws]; rfl, ?_⟩
  exact ⟨by simp [Page.redraw, mirrors.display], mirrors.cursor, mirrors.count, mirrors.lines⟩

/-- Below the row behind the last one there is no line. -/
theorem Mirrors.settle_none (beyond : consoleHeight < page.y) :
    terminal.setDisplayCursorPosition = none := by
  obtain ⟨lines, line, holds, _, length, _⟩ := mirrors.stored 0
  have outside : terminal.lines.at? page.y = none := by
    rw [RingBuffer.at?, RingBuffer.indexAt, if_neg (by rw [holds.count]; omega)]
    rfl
  simp [setDisplayCursorPosition, mirrors.cursor, outside]

theorem Mirrors.moveTo (x y : Nat) : (terminal.setCursor x y).Mirrors (page.moveTo x y) :=
  ⟨mirrors.display, rfl, mirrors.count, mirrors.lines⟩

theorem Mirrors.redrawLines (bound : index + rest ≤ consoleHeight) :
    ∃ after, terminal.redrawLines index rest = some after ∧ after.Mirrors (page.redrawRows index rest) := by
  induction rest generalizing terminal page index with
  | zero => exact ⟨terminal, rfl, mirrors⟩
  | succ rest ih =>
    have here : index ≤ consoleHeight := by omega
    have later : index + 1 + rest ≤ consoleHeight := by omega
    obtain ⟨drawn, draws, result⟩ := mirrors.redrawLine here
    obtain ⟨after, loops, result⟩ := ih result later
    exact ⟨after, by simp [UnlockedTextTerminal.redrawLines, draws, loops], result⟩

theorem Mirrors.scroll :
    ∃ after, (terminal.setCursor terminal.cursor.x (terminal.height - 1)).scrollOneLine = some after ∧
      after.Mirrors page.scroll := by
  obtain ⟨lines, holds, rows⟩ := mirrors.lines
  have count := mirrors.count
  have length : lines.length = consoleHeight := rows.length_eq.trans count
  cases lines with
  | nil => simp [consoleHeight] at length
  | cons line lines =>
    obtain ⟨row, others, _, rest, shape⟩ := List.forall₂_cons_left_iff.mp rows
    obtain ⟨popped, pops, kept⟩ := holds.popFront
    have room : lines.length < consoleHeight := by
      rw [List.length_cons] at length
      omega
    obtain ⟨pushed, pushes, kept⟩ := kept.pushBack room TextLine.nil
    have scrolled : ((terminal.setCursor terminal.cursor.x (terminal.height - 1)).setLines pushed).Mirrors
        page.shift := by
      refine ⟨mirrors.display, ?_, ?_, _, kept, ?_⟩
      · simp only [setLines, setCursor, mirrors.cursor]
        rfl
      · simpa [Page.shift, shape] using count
      · rw [Page.shift, shape]
        exact List.rel_append rest (.cons RingBuffer.holds_nil .nil)
    obtain ⟨after, redraws, result⟩ := scrolled.redrawLines (Nat.le_of_eq (Nat.zero_add consoleHeight))
    refine ⟨after, ?_, result⟩
    have popsHere : (terminal.setCursor terminal.cursor.x (terminal.height - 1)).lines.popFront = some popped := pops
    rw [scrollOneLine, popsHere, Option.bind_eq_bind, Option.bind_some, pushes]
    exact redraws

theorem Mirrors.back :
    terminal.advanceCursorBackward = terminal.setCursor (page.x - 1 : Nat) page.y := by
  simp only [advanceCursorBackward, setCursor, mirrors.cursor]
  split
  · congr 2
    omega
  · have start : page.x - 1 = page.x := by omega
    rw [start, ← mirrors.cursor]

section
variable (lowest : page.y ≤ consoleHeight) (inside : page.x ≤ page.row.length)
include lowest inside

/-- The cursor of the display is placed if the cursor of the terminal is inside its row. -/
theorem Mirrors.settle :
    ∃ after, terminal.setDisplayCursorPosition = some after ∧ after.Mirrors page.settle := by
  obtain ⟨line, found, holds⟩ := mirrors.line lowest
  have column : line.getPhysicalColumnForIndex terminal.display page.x = some page.column := by
    have whole : line.data.Holds ([] ++ page.row) := holds
    rw [mirrors.display]
    exact TextLine.forChars_eq whole inside _ 0
  refine ⟨_, by simp [setDisplayCursorPosition, mirrors.cursor, found, column]; rfl, ?_⟩
  exact ⟨by simp [Page.settle, mirrors.display], rfl, mirrors.count, mirrors.lines⟩

theorem Mirrors.insert (normal : ch ≠ Ascii.newline ∧ ch ≠ Ascii.backspace) :
    ∃ after, terminal.insertChar ch = some after ∧ after.Mirrors (page.insert ch) := by
  have inserts : ∀ line : TextLine, line.data.Holds page.row →
      ∃ next, (line.insert terminal.cursor.x ch).map Prod.fst = some next ∧ next.data.Holds
        (if page.row.length < consoleWidth then page.row.insertIdx page.x ch else page.row) := by
    intro line holds
    rw [mirrors.cursor]
    by_cases room : page.row.length < consoleWidth
    · obtain ⟨next, inserted, result⟩ := TextLine.insert_eq holds room inside normal
      exact ⟨next, by simp [inserted], by rwa [if_pos room]⟩
    · have full : page.row.length = consoleWidth := Nat.le_antisymm holds.fits (Nat.le_of_not_lt room)
      exact ⟨line, by simp [TextLine.insert_full holds full inside normal], by rwa [if_neg room]⟩
  obtain ⟨lines, modified, result⟩ := mirrors.modify lowest inserts
  obtain ⟨after, redraws, result⟩ := result.redrawLine lowest
  refine ⟨after, ?_, result⟩
  have here : (terminal.setLines lines).cursor.y = page.y := by
    simp [setLines, mirrors.cursor]
  rw [insertChar, modified]
  simpa [redrawCurrentLine, here] using redraws

theorem Mirrors.erase : ∃ after, terminal.backspace = some after ∧ after.Mirrors page.erase := by
  have moved := mirrors.moveTo (page.x - 1) page.y
  have removes : ∀ line : TextLine, line.data.Holds (page.moveTo (page.x - 1) page.y).row →
      ∃ next, line.remove ((page.x - 1 : Nat) : Int) = some next ∧
        next.data.Holds ((page.moveTo (page.x - 1) page.y).row.eraseIdx (page.x - 1)) := by
    intro line holds
    refine TextLine.remove_eq holds ?_
    cases shape : page.row with
    | nil => exact .inl shape
    | cons first rest =>
      have length : page.row.length = rest.length + 1 := by rw [shape, List.length_cons]
      right
      change page.x - 1 < page.row.length
      omega
  obtain ⟨lines, modified, result⟩ := moved.modify lowest removes
  obtain ⟨after, redraws, result⟩ := result.redrawLine lowest
  refine ⟨after, ?_, result⟩
  rw [UnlockedTextTerminal.backspace, mirrors.back]
  exact (congrArg (Option.bind · _) modified).trans redraws

end

theorem Mirrors.advance (lowest : page.y < consoleHeight)
    (inside : page.x + 1 < consoleWidth → page.x < page.row.length) :
    ∃ after, terminal.advanceCursorForward = some after ∧ after.Mirrors page.advance := by
  have cursor := mirrors.cursor
  by_cases wraps : consoleWidth ≤ page.x + 1
  · obtain ⟨after, settles, result⟩ := (mirrors.moveTo 0 (page.y + 1)).settle lowest (Nat.zero_le _)
    refine ⟨after, ?_, by rwa [Page.advance, if_pos wraps]⟩
    have past : (consoleWidth : Int) ≤ page.x + 1 := by omega
    simpa [advanceCursorForward, moveCursorForNewline, setCursor, width, VGATextDisplayDevice.width,
      cursor, past] using settles
  · have inside : page.x + 1 ≤ page.row.length := inside (by omega)
    obtain ⟨after, settles, result⟩ := (mirrors.moveTo (page.x + 1) page.y).settle (Nat.le_of_lt lowest) inside
    refine ⟨after, ?_, by rwa [Page.advance, if_neg wraps]⟩
    have before : ¬ (consoleWidth : Int) ≤ page.x + 1 := by omega
    simpa [advanceCursorForward, moveCursorForNewline, setCursor, width, VGATextDisplayDevice.width,
      cursor, before] using settles

end

structure Represents (terminal : UnlockedTextTerminal) (page : Page) : Prop where
  mirrors : terminal.Mirrors page
  proper : page.Proper

/-- The character is put on the row of the cursor, if the cursor is inside it. -/
theorem Mirrors.put_here (mirrors : terminal.Mirrors page) (lowest : page.y < consoleHeight)
    (proper : page.x ≤ page.row.length → page.Proper)
    (normal : ch ≠ Ascii.newline ∧ ch ≠ Ascii.backspace) :
    Option.Rel Represents ((terminal.insertChar ch).bind advanceCursorForward)
      (if page.x ≤ page.row.length then some (page.insert ch).advance else none) := by
  by_cases inside : page.x ≤ page.row.length
  · obtain ⟨inserted, inserts, result⟩ := mirrors.insert (Nat.le_of_lt lowest) inside normal
    have kept := (proper inside).insert ch
    have room := (proper inside).insert_room ch
    obtain ⟨after, advances, result⟩ := result.advance lowest room
    rw [if_pos inside, inserts, Option.bind_some, advances]
    exact .some ⟨result, kept.advance lowest room⟩
  · obtain ⟨lines, line, holds, _, length, found, stored⟩ := mirrors.stored page.y
    obtain ⟨index, kept⟩ := holds.slot (by omega) found
    have fails : line.insert page.x ch = none := TextLine.insert_outside stored (Nat.lt_of_not_le inside) ch
    rw [if_neg inside, insertChar, mirrors.cursor]
    simp [RingBuffer.modifyAt, index, kept, fails]

section
variable (represents : terminal.Represents page)
include represents

theorem Represents.put (normal : ch ≠ Ascii.newline ∧ ch ≠ Ascii.backspace) :
    Option.Rel Represents (terminal.putNormalCharacter ch) (page.put ch) := by
  obtain ⟨mirrors, proper⟩ := represents
  have row := mirrors.cursor_y
  by_cases bottom : consoleHeight ≤ page.y
  · obtain ⟨scrolled, scrolls, result⟩ := mirrors.scroll
    have below : (terminal.height : Int) ≤ terminal.cursor.y := by
      rw [row]
      exact Int.ofNat_le.mpr bottom
    have start : page.scroll.x ≤ page.scroll.row.length → page.scroll.Proper := by
      intro inside
      rw [Page.scroll_row proper.count, Page.scroll_x] at inside
      exact proper.scroll (Nat.le_zero.mp inside)
    have last : page.scroll.y < consoleHeight := by
      rw [Page.scroll_y]
      decide
    rw [putNormalCharacter, Page.put, if_pos below, if_pos bottom, scrolls]
    exact result.put_here last start normal
  · have above : ¬ (terminal.height : Int) ≤ terminal.cursor.y := by
      rw [row]
      exact fun impossible => bottom (Int.ofNat_le.mp impossible)
    rw [putNormalCharacter, Page.put, if_neg above, if_neg bottom]
    exact mirrors.put_here (Nat.lt_of_not_le bottom) (fun _ => proper) normal

theorem Represents.settle :
    Option.Rel Represents terminal.setDisplayCursorPosition (some page.settle) := by
  obtain ⟨mirrors, proper⟩ := represents
  obtain ⟨after, settles, result⟩ := mirrors.settle proper.lowest proper.inside
  rw [settles]
  exact .some ⟨result, proper.settle⟩

theorem Represents.moveTo {x y : Nat} (lowest : y ≤ consoleHeight)
    (inside : x ≤ (page.rowAt y).length) : (terminal.setCursor x y).Represents (page.moveTo x y) :=
  ⟨represents.mirrors.moveTo x y, represents.proper.moveTo lowest inside⟩

theorem Represents.putchar (ch : UInt8) :
    Option.Rel Represents (terminal.putchar ch) (page.putchar ch) := by
  obtain ⟨mirrors, proper⟩ := represents
  rw [UnlockedTextTerminal.putchar, Page.putchar]
  split
  · exact Represents.settle ⟨mirrors, proper⟩
  · split
    · have moved : terminal.moveCursorForNewline = terminal.setCursor (0 : Nat) (page.y + 1 : Nat) := by
        simp [moveCursorForNewline, mirrors.cursor]
      rw [moved]
      split
      · exact Represents.settle ⟨mirrors.moveTo 0 _, proper.moveTo ‹_› (Nat.zero_le _)⟩
      · have beyond : consoleHeight < (page.moveTo 0 (page.y + 1)).y := by
          simp only [Page.moveTo_y]
          omega
        have fails := (mirrors.moveTo 0 (page.y + 1)).settle_none beyond
        change Option.Rel Represents (setDisplayCursorPosition _) none
        rw [fails]
        exact .none
    · split
      · obtain ⟨after, erases, result⟩ := mirrors.erase proper.lowest proper.inside
        rw [erases]
        exact Represents.settle ⟨result, proper.erase⟩
      · rw [Option.map_eq_bind]
        exact rel_bind (Represents.put ⟨mirrors, proper⟩ ⟨‹_›, ‹_›⟩) fun _ _ result => result.settle

theorem Represents.stroke (stroke : Stroke) :
    Option.Rel Represents (terminal.stroke stroke) (page.stroke stroke) := by
  have inside := represents.proper.inside
  have lowest := represents.proper.lowest
  have cursor := represents.mirrors.cursor
  obtain ⟨line, found, holds⟩ := represents.mirrors.line lowest
  have width : line.size = page.row.length := holds.size
  cases stroke with
  | putchar ch => exact represents.putchar ch
  | moveCursorLeft =>
    change Option.Rel Represents terminal.advanceCursorBackward.setDisplayCursorPosition _
    rw [represents.mirrors.back]
    refine (represents.moveTo lowest ?_).settle
    change page.x - 1 ≤ page.row.length
    omega
  | moveCursorRight =>
    have moves : terminal.moveCursorRight =
        (terminal.setCursor (min (page.x + 1) page.row.length : Nat) page.y).setDisplayCursorPosition := by
      have measured : (terminal.setCursor (terminal.cursor.x + 1) terminal.cursor.y).getLineWidth =
          some page.row.length := by
        simp [getLineWidth, setCursor, cursor, found, width]
      rw [moveCursorRight, measured]
      by_cases past : page.row.length < page.x + 1
      · have beyond : (page.x : Int) + 1 > page.row.length := by omega
        rw [Nat.min_eq_right (Nat.le_of_lt past)]
        simp only [Option.bind_eq_bind, Option.bind_some, setCursor, if_pos beyond, cursor]
      · have before : ¬ (page.x : Int) + 1 > page.row.length := by omega
        rw [Nat.min_eq_left (Nat.le_of_not_lt past)]
        simp only [Option.bind_eq_bind, Option.bind_some, setCursor, if_neg before, cursor, Int.natCast_add,
          Int.cast_ofNat_Int]
    change Option.Rel Represents terminal.moveCursorRight _
    rw [moves]
    exact (represents.moveTo lowest (Nat.min_le_right _ _)).settle
  | moveCursorToEnd =>
    have moves : terminal.moveCursorToEnd =
        (terminal.setCursor page.row.length page.y).setDisplayCursorPosition := by
      simp [moveCursorToEnd, getLineWidth, cursor, found, width]
    change Option.Rel Represents terminal.moveCursorToEnd _
    rw [moves]
    exact (represents.moveTo lowest (Nat.le_refl _)).settle

end

/-- The rows of a new terminal are empty. -/
def blankPage (display : VGATextDisplayDevice) : Page :=
  { display, rows := List.replicate consoleHeight [], x := 0, y := 0 }

theorem holds_emptyLines (fits : count ≤ consoleHeight) :
    (emptyLines count).Holds (List.replicate count TextLine.nil) := by
  induction count with
  | zero => exact RingBuffer.holds_nil
  | succ count ih =>
    obtain ⟨next, pushes, result⟩ := (ih (by omega)).pushBack (by simp; omega) TextLine.nil
    rw [emptyLines, pushes, List.replicate_succ']
    exact result

theorem represents_create (display : VGATextDisplayDevice) :
    (create display).Represents (blankPage display) := by
  have lines : (create display).lines = emptyLines display.height := by simp only [create]
  have height : display.height = consoleHeight := rfl
  have holds : (create display).lines.Holds (List.replicate consoleHeight TextLine.nil) := by
    rw [lines, height]
    exact holds_emptyLines (Nat.le_refl consoleHeight)
  refine ⟨⟨rfl, rfl, List.length_replicate, _, holds, ?_⟩, ?_⟩
  · refine List.forall₂_iff_get.mpr ⟨by simp [blankPage], fun i _ _ => ?_⟩
    simpa [blankPage, TextLine.nil] using RingBuffer.holds_nil
  · refine ⟨List.length_replicate, fun row member => ?_, Nat.zero_le _, Nat.zero_le _⟩
    simp [List.eq_of_mem_replicate member]

end

end UnlockedTextTerminal

end FlapjackOS.Terminal
