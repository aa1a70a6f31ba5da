import FlapjackOS.Terminal.Page

namespace FlapjackOS.Terminal

open Function

namespace VGATextDisplayDevice

/-- The character in a cell of the screen. -/
def cell (display : VGATextDisplayDevice) (row column : Nat) : UInt8 := display.getChar ⟨column, row⟩

/-- The character that is shown for one that is drawn. -/
def shown (ch : UInt8) : UInt8 := if ch = 0 then Ascii.space else ch

theorem onScreen_iff (row column : Nat) :
    onScreen ⟨column, row⟩ ↔ row < consoleHeight ∧ column < consoleWidth := by
  simp only [onScreen]
  omega

section
variable (display : VGATextDisplayDevice)

theorem cell_eq (rowBound : row < consoleHeight)
    (columnBound : column < consoleWidth) : display.cell row column = display.buffer (index ⟨column, row⟩) :=
  if_pos ((onScreen_iff row column).mpr ⟨rowBound, columnBound⟩)

theorem cell_drawChar (visible : isprint (shown ch) = true)
    (rowBound : row < consoleHeight) (columnBound : column < consoleWidth) (i j : Nat) :
    (display.drawChar ⟨j, i⟩ ch).cell row column =
      if i = row ∧ j = column then shown ch else display.cell row column := by
  have drawn : display.drawChar ⟨j, i⟩ ch =
      if i < consoleHeight ∧ j < consoleWidth then
        { display with buffer := update display.buffer (index ⟨j, i⟩) (shown ch) } else display := by
    have drawable : onScreen ⟨j, i⟩ ∧ isprint (shown ch) = true ↔ i < consoleHeight ∧ j < consoleWidth := by
      rw [onScreen_iff]
      exact and_iff_left visible
    unfold drawChar
    exact if_congr drawable rfl rfl
  rw [drawn]
  by_cases inside : i < consoleHeight ∧ j < consoleWidth
  · rw [if_pos inside, cell_eq _ rowBound columnBound, cell_eq _ rowBound columnBound]
    by_cases here : i = row ∧ j = column
    · obtain ⟨rfl, rfl⟩ := here
      simp
    · rw [if_neg here]
      refine update_of_ne (fun same => here ?_) _ _
      simp only [index, consoleWidth] at same columnBound inside
      omega
  · rw [if_neg inside, if_neg]
    rintro ⟨rfl, rfl⟩
    exact inside ⟨rowBound, columnBound⟩

/-- Draw the characters in consecutive columns. -/
def write (display : VGATextDisplayDevice) (row : Nat) (column : Nat) : List UInt8 → VGATextDisplayDevice
  | [] => display
  | ch :: rest => (display.drawChar ⟨column, row⟩ ch).write row (column + 1) rest

theorem fill_eq (row column count : Nat) (ch : UInt8) :
    display.fill row ch column count = display.write row column (List.replicate count ch) := by
  induction count generalizing display column with
  | zero => rfl
  | succ count ih => exact ih _ _

theorem write_append (row column : Nat) (first second : List UInt8) :
    display.write row column (first ++ second) =
      (display.write row column first).write row (column + first.length) second := by
  induction first generalizing display column with
  | nil => rfl
  | cons ch rest ih =>
    rw [List.cons_append, write, write, ih, List.length_cons, Nat.add_assoc, Nat.add_comm 1]

theorem cell_write {chars : List UInt8}
    (visible : ∀ ch ∈ chars, isprint (shown ch) = true)
    (rowBound : row < consoleHeight) (columnBound : column < consoleWidth) (i j : Nat) :
    (display.write i j chars).cell row column =
      ((if i = row ∧ j ≤ column then chars[column - j]? else none).map shown).getD (display.cell row column) := by
  induction chars generalizing display j with
  | nil => simp [write]
  | cons ch rest ih =>
    have here := visible ch List.mem_cons_self
    rw [write, ih _ (fun other member => visible other (List.mem_cons_of_mem _ member)),
      cell_drawChar _ here rowBound columnBound]
    by_cases same : i = row
    · rcases Nat.lt_trichotomy j column with before | rfl | after
      · have next : column - j = column - (j + 1) + 1 := by omega
        have apart : ¬ (i = row ∧ j = column) := by omega
        have later : i = row ∧ j + 1 ≤ column := by omega
        have reached : i = row ∧ j ≤ column := by omega
        rw [if_neg apart, if_pos later, if_pos reached, next, List.getElem?_cons_succ]
      · have later : ¬ (i = row ∧ j + 1 ≤ j) := by omega
        rw [if_neg later, if_pos ⟨same, rfl⟩, if_pos ⟨same, Nat.le_refl j⟩, Nat.sub_self]
        rfl
      · have apart : ¬ (i = row ∧ j = column) := by omega
        have later : ¬ (i = row ∧ j + 1 ≤ column) := by omega
        have unreached : ¬ (i = row ∧ j ≤ column) := by omega
        rw [if_neg apart, if_neg later, if_neg unreached]
    · simp [same]

end

end VGATextDisplayDevice

open VGATextDisplayDevice

theorem isprint_shown (printable : isprint ch = true) : shown ch = ch ∧ isprint (shown ch) = true := by
  have nonzero : ch ≠ 0 := by
    rintro rfl
    cases printable
  rw [shown, if_neg nonzero]
  exact ⟨rfl, printable⟩

namespace TextLine

section
variable (display : VGATextDisplayDevice)
include display

/-- A printable character takes up one column. -/
theorem draw_printable (row : Nat) (printable : isprint ch = true) (inside : col < maxColumns) :
    Pen.draw tabWidth maxColumns ⟨display, col, row⟩ ch =
      if maxColumns ≤ col + 1 then ⟨display.write row col [ch], 0, (row + 1 : Nat)⟩
      else ⟨display.write row col [ch], col + 1, row⟩ := by
  have notTab : ch ≠ Ascii.tab := by
    rintro rfl
    cases printable
  have step : stepForChar tabWidth col ch = 1 := by
    rw [stepForChar, if_neg notTab, if_pos printable]
  have one : min (col + 1) maxColumns - col = 1 := by omega
  simp only [Pen.draw, step, one, if_neg notTab, fill_eq, List.replicate_one]
  rfl

theorem foldl_draw (row : Nat) {chars : List UInt8} (printable : ∀ ch ∈ chars, isprint ch = true)
    (fits : col + chars.length < maxColumns) :
    chars.foldl (Pen.draw tabWidth maxColumns) ⟨display, col, row⟩ =
      ⟨display.write row col chars, col + chars.length, row⟩ := by
  induction chars generalizing display col with
  | nil => rfl
  | cons ch rest ih =>
    rw [List.length_cons] at fits
    have here := printable ch List.mem_cons_self
    have inside : col < maxColumns := by omega
    have room : col + 1 + rest.length < maxColumns := by omega
    rw [List.foldl_cons, draw_printable display row here inside, if_neg (by omega),
      ih _ (fun other member => printable other (List.mem_cons_of_mem _ member)) room]
    simp only [write, List.length_cons, Nat.add_assoc, Nat.add_comm 1]

/-- The row is drawn and filled up with blanks; after a full row, the next one is blank. -/
theorem drawn_eq (row : Nat) {chars : List UInt8} (printable : ∀ ch ∈ chars, isprint ch = true)
    (fits : chars.length ≤ consoleWidth) :
    drawn display row chars =
      if chars.length = consoleWidth then
        (display.write row 0 chars).write (row + 1) 0 (List.replicate consoleWidth 0)
      else display.write row 0 (chars ++ List.replicate (consoleWidth - chars.length) 0) := by
  have width : display.width = consoleWidth := rfl
  split
  · next full =>
    have occupied : chars ≠ [] := by
      rintro rfl
      cases full
    obtain ⟨init, last, rfl⟩ : ∃ init last, chars = init ++ [last] :=
      ⟨_, _, (List.dropLast_append_getLast occupied).symm⟩
    rw [List.length_append, List.length_singleton] at full
    have before : ∀ ch ∈ init, isprint ch = true := fun ch member => printable ch (by simp [member])
    have here : isprint last = true := printable last (by simp)
    have room : 0 + init.length < consoleWidth := by omega
    have loops : (init ++ [last]).foldl (Pen.draw display.getTabWidth consoleWidth) ⟨display, 0, row⟩ =
        ⟨display.write row 0 (init ++ [last]), 0, (row + 1 : Nat)⟩ := by
      rw [List.foldl_append, foldl_draw display row before room, List.foldl_cons, List.foldl_nil,
        draw_printable _ row here room, if_pos (by omega), write_append]
    rw [drawn, width, loops]
    exact fill_eq _ _ _ _ _
  · next short =>
    have room : 0 + chars.length < consoleWidth := by omega
    rw [drawn, width, foldl_draw display row printable room, write_append]
    simp only [Nat.zero_add]
    exact fill_eq _ _ _ _ _

/-- What the display shows after a row has been drawn. -/
theorem cell_drawn (i : Nat) {chars : List UInt8} (printable : ∀ ch ∈ chars, isprint ch = true)
    (fits : chars.length ≤ consoleWidth) (rowBound : row < consoleHeight)
    (columnBound : column < consoleWidth) :
    (drawn display i chars).cell row column =
      if i = row then chars[column]?.getD Ascii.space
      else if i + 1 = row ∧ chars.length = consoleWidth then Ascii.space
      else display.cell row column := by
  have visible : ∀ ch ∈ chars, isprint (shown ch) = true := fun ch member => (isprint_shown (printable ch member)).2
  have visibleBlanks : ∀ count, ∀ ch ∈ List.replicate count (0 : UInt8), isprint (shown ch) = true := by
    intro count ch member
    rw [List.eq_of_mem_replicate member]
    rfl
  have same : ∀ ch ∈ chars, shown ch = ch := fun ch member => (isprint_shown (printable ch member)).1
  rw [drawn_eq display i printable fits]
  split
  · next full =>
    have written : column < chars.length := by omega
    rw [cell_write _ (visibleBlanks _) rowBound columnBound, cell_write _ visible rowBound columnBound]
    by_cases next : i + 1 = row
    · have apart : i ≠ row := by omega
      simp [next, apart, full, columnBound, shown]
    · by_cases here : i = row
      · simp [here, written, same _ (List.getElem_mem written)]
      · simp [next, here]
  · next short =>
    have visibleAll : ∀ ch ∈ chars ++ List.replicate (consoleWidth - chars.length) 0,
        isprint (shown ch) = true := by
      intro ch member
      exact (List.mem_append.mp member).elim (visible ch) (visibleBlanks _ ch)
    rw [cell_write _ visibleAll rowBound columnBound]
    by_cases here : i = row
    · simp only [here, Nat.zero_le, and_self, if_true, Nat.sub_zero]
      by_cases written : column < chars.length
      · rw [List.getElem?_append_left written]
        simp [written, same _ (List.getElem_mem written)]
      · have blank : column - chars.length < consoleWidth - chars.length := by omega
        rw [List.getElem?_append_right (Nat.le_of_not_lt written), List.getElem?_replicate, if_pos blank,
          List.getElem?_eq_none (Nat.le_of_not_lt written)]
        rfl
    · simp [here, short]

end

end TextLine

namespace Page

/-- The display shows the row, followed by blanks. -/
def ShowsRow (page : Page) (row : Nat) : Prop :=
  ∀ column < consoleWidth, page.display.cell row column = (page.rowAt row)[column]?.getD Ascii.space

/-- The display shows each row. -/
def Shown (page : Page) : Prop :=
  ∀ row < consoleHeight, ∀ column < consoleWidth,
    page.display.cell row column = (page.rowAt row)[column]?.getD Ascii.space

/-- All characters take up one column. -/
def Printable (page : Page) : Prop := ∀ row ∈ page.rows, ∀ ch ∈ row, isprint ch = true

section
variable {page : Page}

theorem Printable.rowAt (printable : page.Printable) (count : page.rows.length = consoleHeight) (index : Nat) :
    ∀ ch ∈ page.rowAt index, isprint ch = true :=
  printable _ (rowAt_mem count index)

theorem Printable.shift (printable : page.Printable) : page.shift.Printable := by
  intro row member
  rcases List.mem_append.mp member with member | member
  · exact printable row (List.mem_of_mem_tail member)
  · simp [List.mem_singleton.mp member]

section
variable (proper : page.Proper) (printable : page.Printable)
include proper printable

theorem cell_redraw {row column : Nat} (i : Nat) (rowBound : row < consoleHeight)
    (columnBound : column < consoleWidth) :
    (page.redraw i).display.cell row column =
      if i = row then (page.rowAt i)[column]?.getD Ascii.space
      else if i + 1 = row ∧ (page.rowAt i).length = consoleWidth then Ascii.space
      else page.display.cell row column :=
  TextLine.cell_drawn _ i (printable.rowAt proper.count i) (proper.row_fits i) rowBound columnBound

/-- A row that was drawn again is shown, and so is the next one if it is empty. -/
theorem Shown.redraw (others : ∀ row < consoleHeight, row ≠ i → page.ShowsRow row)
    (next : i + 1 < consoleHeight → page.rowAt (i + 1) = []) : (page.redraw i).Shown := by
  intro row rowBound column columnBound
  rw [cell_redraw proper printable i rowBound columnBound]
  split
  · next same =>
    subst same
    rfl
  · next apart =>
    split
    · next full =>
      obtain ⟨rfl, _⟩ := full
      change _ = (page.rowAt (i + 1))[column]?.getD Ascii.space
      rw [next rowBound]
      rfl
    · exact others row rowBound (Ne.symm apart) column columnBound

/-- Drawing from row `i` on, each row is shown; a full one blanks the next only before its turn. -/
theorem redrawRows_shown {i rest : Nat} (before : ∀ row < i, page.ShowsRow row) (bound : i + rest ≤ consoleHeight) :
    ∀ row < i + rest, (page.redrawRows i rest).ShowsRow row := by
  induction rest generalizing page i with
  | zero => exact before
  | succ rest ih =>
    rw [Nat.add_succ, ← Nat.succ_add]
    refine ih (proper.redraw i) printable (fun row rowBound column columnBound => ?_) (by omega)
    rw [cell_redraw proper printable i (by omega) columnBound]
    change _ = (page.rowAt row)[column]?.getD Ascii.space
    by_cases here : i = row
    · rw [if_pos here, here]
    · rw [if_neg here, if_neg (by omega)]
      exact before row (by omega) column columnBound

/-- Scrolling shows the new rows. -/
theorem Shown.scroll (start : page.x = 0) : page.scroll.Shown := by
  have none : ∀ row < 0, page.shift.ShowsRow row := fun row impossible => absurd impossible (Nat.not_lt_zero row)
  have all := redrawRows_shown (proper.shift start) printable.shift none (Nat.le_of_eq (Nat.zero_add consoleHeight))
  rwa [Nat.zero_add] at all

end

end

end Page

end FlapjackOS.Terminal
