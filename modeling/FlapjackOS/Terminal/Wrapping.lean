import FlapjackOS.Terminal.Picture
import FlapjackOS.Terminal.Safety
import Mathlib.Data.List.DropRight
import Mathlib.Data.List.GetD

/-! A text of printable characters and newlines on a new terminal: the last rows of the text,
wrapped at the right margin. -/

namespace FlapjackOS.Terminal

open Simulation

/-- The rows of the text that follows a row which has been begun. The character that fills a row
ends it, and so does a newline. -/
def wrapFrom (current : List UInt8) : List UInt8 → List (List UInt8)
  | [] => [current]
  | ch :: rest =>
    if ch = Ascii.newline then current :: wrapFrom [] rest
    else if current.length + 1 = consoleWidth then (current ++ [ch]) :: wrapFrom [] rest
    else wrapFrom (current ++ [ch]) rest

def wrap (text : List UInt8) : List (List UInt8) := wrapFrom [] text

/-- The rows up to the last one that received a character. -/
def received (rows : List (List UInt8)) : List (List UInt8) := rows.rdropWhile List.isEmpty

/-- The last rows that fit on the screen, with empty rows behind them if they are fewer. -/
def lastRows (rows : List (List UInt8)) : List (List UInt8) :=
  (received rows).rtake consoleHeight ++ List.replicate (consoleHeight - (received rows).length) []

section
variable {rows : List (List UInt8)} {last : List UInt8}

theorem lastRows_append_nil (rows : List (List UInt8)) : lastRows (rows ++ [[]]) = lastRows rows := by
  rw [lastRows, received, List.rdropWhile_concat_pos _ _ _ rfl]
  rfl

theorem received_append (occupied : last ≠ []) : received (rows ++ [last]) = rows ++ [last] :=
  List.rdropWhile_concat_neg _ _ _ (by simpa using occupied)

/-- Rows that fit on the screen are all there. -/
theorem lastRows_of_le (fits : rows.length ≤ consoleHeight) :
    lastRows rows = rows ++ List.replicate (consoleHeight - rows.length) [] := by
  induction rows using List.reverseRecOn with
  | nil => rfl
  | append_singleton rows last ih =>
    rw [List.length_append, List.length_singleton] at fits
    by_cases blank : last = []
    · have more : consoleHeight - rows.length = consoleHeight - (rows.length + 1) + 1 := by omega
      subst blank
      rw [lastRows_append_nil, ih (by omega), more, List.replicate_succ]
      simp
    · have all : (rows ++ [last]).length - consoleHeight = 0 := by
        simp
        omega
      rw [lastRows, received_append blank, List.rtake, all, List.drop_zero]

/-- Of the rows that have scrolled off, nothing is there. -/
theorem lastRows_of_append (above : List (List UInt8)) (count : (above ++ [last]).length = consoleHeight)
    (occupied : last ≠ []) (gone : List (List UInt8)) :
    lastRows (gone ++ above ++ [last]) = above ++ [last] := by
  rw [lastRows, received_append occupied, List.append_assoc, List.rtake, List.length_append, count,
    Nat.add_sub_cancel, List.drop_left]
  simp

end

/-- The cursor is behind the last character of the text, which the display shows from the rows
above the current one on. -/
structure Page.Laid (page : Page) (above : List (List UInt8)) (current : List UInt8) : Prop where
  proper : page.Proper
  printable : page.Printable
  shown : page.Shown
  rows : ∀ i < consoleHeight, page.rowAt i = (above ++ [current]).getD i []
  x : page.x = current.length
  y : page.y = above.length
  narrow : current.length < consoleWidth
  below : above.length = consoleHeight → current = []

/-- If rows have scrolled off, then the last row of the screen has received a character. -/
def Tight (gone above : List (List UInt8)) (current : List UInt8) : Prop :=
  gone = [] ∨ (above.length + 1 = consoleHeight ∧ current ≠ []) ∨
    ∃ init last, above = init ++ [last] ∧ last ≠ [] ∧ above.length = consoleHeight ∧ current = []

theorem Tight.last (tight : Tight gone above current) (room : above.length < consoleHeight) :
    gone = [] ∨ (above.length + 1 = consoleHeight ∧ current ≠ []) := by
  rcases tight with none | last | ⟨_, _, _, _, full, _⟩
  · exact .inl none
  · exact .inr last
  · omega

theorem getD_append_singleton (rows : List (List UInt8)) (last : List UInt8) (i : Nat) :
    (rows ++ [last]).getD i [] = if i = rows.length then last else rows.getD i [] := by
  rcases Nat.lt_trichotomy i rows.length with inside | rfl | outside
  · rw [List.getD_append _ _ _ _ inside, if_neg (Nat.ne_of_lt inside)]
  · simp
  · rw [if_neg (Nat.ne_of_gt outside), List.getD_eq_default _ _ (by simp; omega),
      List.getD_eq_default _ _ (Nat.le_of_lt outside)]

theorem getD_append_nil (rows : List (List UInt8)) (i : Nat) : (rows ++ [[]]).getD i [] = rows.getD i [] := by
  rw [getD_append_singleton]
  split
  · next last => simp [last]
  · rfl

theorem getD_append_replicate (rows : List (List UInt8)) (count i : Nat) :
    (rows ++ List.replicate count []).getD i [] = rows.getD i [] := by
  induction count with
  | zero => simp
  | succ count ih => rw [List.replicate_succ', ← List.append_assoc, getD_append_nil, ih]

namespace Page
section
variable {page : Page} {above : List (List UInt8)} {current : List UInt8}

section
variable (laid : page.Laid above current)
include laid

theorem Laid.row (room : above.length < consoleHeight) : page.row = current := by
  rw [Page.row, laid.y, laid.rows _ room]
  simp

/-- The page after the insertion of a character, before the cursor moves. -/
theorem Laid.insert (room : above.length < consoleHeight) (printable : isprint ch = true) :
    (page.insert ch).Printable ∧ (page.insert ch).Shown ∧
      ∀ i < consoleHeight, (page.insert ch).rowAt i = (above ++ [current ++ [ch]]).getD i [] := by
  have count := laid.proper.count
  have onRow : page.y < consoleHeight := laid.y ▸ room
  have inserted : page.insert ch = (page.setRow (current ++ [ch])).redraw page.y := by
    rw [Page.insert, laid.row room, if_pos laid.narrow, laid.x, List.insertIdx_length_self]
  have proper : (page.setRow (current ++ [ch])).Proper := by
    have narrow := laid.narrow
    refine laid.proper.setRow ?_ ?_
    · simp
      omega
    · simp [laid.x]
  have visible : (page.setRow (current ++ [ch])).Printable := by
    intro row member
    rcases List.mem_or_eq_of_mem_set member with member | rfl
    · exact laid.printable row member
    · intro other member
      rcases List.mem_append.mp member with member | member
      · rw [← laid.row room] at member
        exact laid.printable.rowAt count page.y other member
      · rwa [List.mem_singleton.mp member]
  have rows : ∀ i < consoleHeight, (page.setRow (current ++ [ch])).rowAt i =
      (above ++ [current ++ [ch]]).getD i [] := by
    intro i bound
    rw [rowAt_setRow count onRow bound, laid.y, laid.rows i bound, getD_append_singleton, getD_append_singleton]
    split <;> rfl
  rw [inserted]
  refine ⟨visible, Shown.redraw proper visible ?_ ?_, rows⟩
  · intro row rowBound apart column columnBound
    rw [rowAt_setRow count onRow rowBound, if_neg apart]
    exact laid.shown row rowBound column columnBound
  · intro below
    rw [rows _ below, laid.y]
    simp

theorem Laid.put (room : above.length < consoleHeight) (printable : isprint ch = true) :
    if current.length + 1 = consoleWidth then (page.insert ch).advance.Laid (above ++ [current ++ [ch]]) []
    else (page.insert ch).advance.Laid above (current ++ [ch]) := by
  obtain ⟨visible, shown, rows⟩ := laid.insert room printable
  have narrow := laid.narrow
  have proper := (laid.proper.insert ch).advance (laid.y ▸ room) (laid.proper.insert_room ch)
  have x : (page.insert ch).x = current.length := laid.x
  have y : (page.insert ch).y = above.length := laid.y
  rw [Page.advance, x, y] at proper ⊢
  split
  · next wraps =>
    rw [if_pos (by omega)] at proper ⊢
    refine ⟨proper, visible, shown, fun i bound => ?_, rfl, ?_, by decide, fun _ => rfl⟩
    · rw [getD_append_nil]
      exact rows i bound
    · simp
  · next stays =>
    rw [if_neg (by omega)] at proper ⊢
    refine ⟨proper, visible, shown, rows, ?_, rfl, ?_, ?_⟩
    · simp
    · simp
      omega
    · omega

theorem Laid.scroll (bottom : above.length = consoleHeight) : page.scroll.Laid above.tail [] := by
  have start : page.x = 0 := by rw [laid.x, laid.below bottom, List.length_nil]
  have count := laid.proper.count
  refine ⟨laid.proper.scroll start, ?_, .scroll laid.proper laid.printable start, fun i bound => ?_, ?_, ?_,
    by decide, fun _ => rfl⟩
  · rw [Printable, scroll_rows]
    exact laid.printable.shift
  · rw [rowAt_scroll count bound, getD_append_nil]
    cases above with
    | nil => cases bottom
    | cons first rest =>
      rw [List.length_cons] at bottom
      split
      · next inside =>
        rw [laid.rows _ inside, List.cons_append, List.getD_cons_succ, List.getD_append _ _ _ _ (by omega)]
        rfl
      · exact (List.getD_eq_default _ _ (by simp; omega)).symm
  · rw [scroll_x, start, List.length_nil]
  · rw [scroll_y, List.length_tail, bottom]

theorem Laid.settle : page.settle.Laid above current :=
  ⟨laid.proper.settle, laid.printable, laid.shown, laid.rows, laid.x, laid.y, laid.narrow, laid.below⟩

/-- A newline ends the current row. -/
theorem Laid.stroke_newline (tight : Tight gone above current)
    (stepped : page.stroke (.putchar Ascii.newline) = some next) :
    next.Laid (above ++ [current]) [] ∧ Tight gone (above ++ [current]) [] := by
  have room : above.length < consoleHeight := by
    by_contra bottom
    have stuck : page.stroke (.putchar Ascii.newline) = none := if_neg (laid.y ▸ bottom)
    rw [stuck] at stepped
    cases stepped
  have moved : page.stroke (.putchar Ascii.newline) = some _ := if_pos (laid.y ▸ room)
  cases moved.symm.trans stepped
  have proper : (page.moveTo 0 (page.y + 1)).Proper := laid.proper.moveTo (laid.y ▸ room) (Nat.zero_le _)
  refine ⟨⟨proper.settle, laid.printable, laid.shown, fun i bound => ?_, rfl, ?_, by decide, fun _ => rfl⟩, ?_⟩
  · rw [getD_append_nil]
    exact laid.rows i bound
  · simp [laid.y]
  · rcases tight.last room with none | ⟨last, occupied⟩
    · exact .inl none
    · exact .inr (.inr ⟨above, current, rfl, occupied, by simpa using last, rfl⟩)

/-- A printable character is put on the current row, or on a new last row. -/
theorem Laid.stroke_printable (tight : Tight gone above current) (printable : isprint ch = true)
    (stepped : page.stroke (.putchar ch) = some next) :
    (current.length + 1 = consoleWidth ∧ next.Laid (above ++ [current ++ [ch]]) [] ∧
        Tight gone (above ++ [current ++ [ch]]) []) ∨
      (current.length + 1 ≠ consoleWidth ∧ next.Laid above (current ++ [ch]) ∧ Tight gone above (current ++ [ch])) ∨
      ∃ first rest, above = first :: rest ∧ current = [] ∧ next.Laid rest [ch] ∧ Tight (gone ++ [first]) rest [ch] := by
  rw [stroke_plain (.inl printable)] at stepped
  have lowest : above.length ≤ consoleHeight := laid.y ▸ laid.proper.lowest
  by_cases room : above.length < consoleHeight
  · have put := laid.put room printable
    rw [laid.proper.put (laid.y ▸ room)] at stepped
    cases stepped
    split at put
    · next wraps =>
      refine .inl ⟨wraps, put.settle, ?_⟩
      rcases tight.last room with none | ⟨last, _⟩
      · exact .inl none
      · exact .inr (.inr ⟨above, current ++ [ch], rfl, by simp, by simpa using last, rfl⟩)
    · next stays =>
      refine .inr (.inl ⟨stays, put.settle, ?_⟩)
      rcases tight.last room with none | ⟨last, _⟩
      · exact .inl none
      · exact .inr (.inl ⟨last, by simp⟩)
  · have bottom : above.length = consoleHeight := by omega
    have tail : above.tail.length < consoleHeight := by
      rw [List.length_tail, bottom]
      decide
    have put := (laid.scroll bottom).put tail printable
    rw [if_neg (by decide)] at put
    have start : page.x = 0 := by rw [laid.x, laid.below bottom, List.length_nil]
    rw [laid.proper.put_below (laid.y ▸ Nat.le_of_eq bottom.symm), if_pos start] at stepped
    cases stepped
    cases above with
    | nil => cases bottom
    | cons first rest =>
      refine .inr (.inr ⟨first, rest, rfl, laid.below bottom, put.settle, .inr (.inl ⟨bottom, by simp⟩)⟩)

/-- The text leaves the rows that it wraps to, the first of them scrolled off. -/
theorem Laid.run (tight : Tight gone above current)
    (proper : ∀ ch ∈ text, isprint ch = true ∨ ch = Ascii.newline)
    (ran : Runs.run Page.stroke page (text.map .putchar) = some final) :
    ∃ gone' above' current', final.Laid above' current' ∧ Tight gone' above' current' ∧
      gone ++ above ++ wrapFrom current text = gone' ++ above' ++ [current'] := by
  induction text generalizing page gone above current with
  | nil =>
    cases ran
    exact ⟨gone, above, current, laid, tight, rfl⟩
  | cons ch rest ih =>
    obtain ⟨next, stepped, continues⟩ := Option.bind_eq_some_iff.mp ran
    have later : ∀ ch ∈ rest, isprint ch = true ∨ ch = Ascii.newline :=
      fun other member => proper other (List.mem_cons_of_mem _ member)
    by_cases ends : ch = Ascii.newline
    · subst ends
      obtain ⟨result, tight⟩ := laid.stroke_newline tight stepped
      obtain ⟨gone', above', current', result, tight, same⟩ := ih result tight later continues
      exact ⟨gone', above', current', result, tight, by rw [← same]; simp [wrapFrom]⟩
    · have printable := (proper ch List.mem_cons_self).resolve_right ends
      rcases laid.stroke_printable tight printable stepped with
        ⟨wraps, result, tight⟩ | ⟨stays, result, tight⟩ | ⟨first, others, rfl, rfl, result, tight⟩
      all_goals
        obtain ⟨gone', above', current', result, tight, same⟩ := ih result tight later continues
        refine ⟨gone', above', current', result, tight, ?_⟩
        rw [← same]
      · simp [wrapFrom, ends, wraps]
      · simp [wrapFrom, ends, stays]
      · simp [wrapFrom, ends, consoleWidth]

end

theorem rows_eq_of_rowAt {rows : List (List UInt8)} (count : page.rows.length = consoleHeight)
    (length : rows.length = consoleHeight) (same : ∀ i < consoleHeight, page.rowAt i = rows.getD i []) :
    page.rows = rows := by
  refine List.ext_getElem (count.trans length.symm) fun i first second => ?_
  have bound : i < consoleHeight := count ▸ first
  have here := same i bound
  rwa [rowAt, Nat.mod_eq_of_lt bound, List.getD_eq_getElem _ _ first, List.getD_eq_getElem _ _ second] at here

/-- The rows of the page are the last ones. -/
theorem Laid.rows_eq (laid : page.Laid above current) (tight : Tight gone above current) :
    page.rows = lastRows (gone ++ above ++ [current]) := by
  have count := laid.proper.count
  have lowest : above.length ≤ consoleHeight := laid.y ▸ laid.proper.lowest
  -- all rows are on the screen, or the last one of the screen ends the text
  rcases tight with rfl | ⟨last, occupied⟩ | ⟨init, last, rfl, occupied, full, rfl⟩
  · rw [List.nil_append]
    by_cases bottom : above.length = consoleHeight
    · rw [laid.below bottom, lastRows_append_nil, lastRows_of_le lowest, bottom, Nat.sub_self]
      refine rows_eq_of_rowAt count (by simpa using bottom) fun i bound => ?_
      rw [laid.rows i bound, laid.below bottom, getD_append_nil]
      simp
    · rw [lastRows_of_le (by simp; omega)]
      refine rows_eq_of_rowAt count (by simp; omega) fun i bound => ?_
      rw [laid.rows i bound, getD_append_replicate]
  · rw [lastRows_of_append above (by simpa using last) occupied]
    exact rows_eq_of_rowAt count (by simpa using last) laid.rows
  · rw [lastRows_append_nil, ← List.append_assoc, lastRows_of_append init full occupied]
    refine rows_eq_of_rowAt count full fun i bound => ?_
    rw [laid.rows i bound, getD_append_nil]

theorem laid_blank {display : VGATextDisplayDevice} (blank : ∀ pos, display.getChar pos = Ascii.space) :
    (UnlockedTextTerminal.blankPage display).Laid [] [] := by
  have proper := (UnlockedTextTerminal.represents_create display).proper
  have empty : ∀ i, (UnlockedTextTerminal.blankPage display).rowAt i = [] := by
    intro i
    exact List.eq_of_mem_replicate (rowAt_mem proper.count i)
  refine ⟨proper, fun row member => ?_, fun row _ column _ => ?_, fun i _ => ?_, rfl, rfl, by decide, fun _ => rfl⟩
  · simp [List.eq_of_mem_replicate member]
  · rw [empty row]
    exact blank _
  · rw [empty i, getD_append_nil]
    rfl

end
end Page

namespace UnlockedTextTerminal

/-- The characters of the lines. -/
def text (terminal : UnlockedTextTerminal) : List (List UInt8) :=
  terminal.lines.elements.map (fun line => line.data.elements)

theorem Mirrors.text_eq {terminal : UnlockedTextTerminal} (mirrors : terminal.Mirrors page) :
    terminal.text = page.rows := by
  obtain ⟨lines, holds, rows⟩ := mirrors.lines
  rw [text, holds.elements_eq]
  clear holds
  generalize page.rows = stored at rows ⊢
  induction rows with
  | nil => rfl
  | cons here rest ih => rw [List.map_cons, here.elements_eq, ih]

/-- A text of printable characters and newlines that a new terminal over a blank display takes
without a failed assertion is shown by its last rows. -/
theorem puts_shows_last_rows (display : VGATextDisplayDevice) (blank : ∀ pos, display.getChar pos = Ascii.space)
    (text : List UInt8) (proper : ∀ ch ∈ text, isprint ch = true ∨ ch = Ascii.newline)
    (final : UnlockedTextTerminal) (ran : (create display).puts text = some final) :
    final.text = lastRows (wrap text) ∧
      ∀ row < consoleHeight, ∀ column < consoleWidth, final.display.getChar ⟨column, row⟩ =
        (final.text.getD row [])[column]?.getD Ascii.space := by
  have nonzero : text.takeWhile (· ≠ 0) = text := by
    refine List.takeWhile_eq_self_iff.mpr fun ch member => ?_
    rcases proper ch member with printable | rfl
    · refine decide_eq_true ?_
      rintro rfl
      cases printable
    · decide
  rw [puts_eq, nonzero] at ran
  have follows := run_rel (fun terminal page call (_ : call ∈ text.map .putchar) here =>
    Represents.stroke here call) (represents_create display)
  rw [ran] at follows
  obtain ⟨page, pageRan, represents⟩ := rel_some_left follows
  obtain ⟨gone, above, current, laid, tight, same⟩ :=
    (Page.laid_blank blank).run (.inl rfl) proper pageRan
  have rows := laid.rows_eq tight
  rw [← same] at rows
  rw [represents.mirrors.text_eq]
  refine ⟨rows, fun row rowBound column columnBound => ?_⟩
  have shown := laid.shown row rowBound column columnBound
  rwa [Page.rowAt, Nat.mod_eq_of_lt rowBound, ← represents.mirrors.display] at shown

theorem puts_shows_last_rows_sample :
    ∃ final, (create .blank).puts [72, 105, Ascii.newline, 33] = some final ∧
      final.text = [72, 105] :: [33] :: List.replicate 23 [] := by
  obtain ⟨final, ran⟩ := Option.isSome_iff_exists.mp (show ((create .blank).puts
    [72, 105, Ascii.newline, 33]).isSome = true by decide +kernel)
  have blank : ∀ pos, VGATextDisplayDevice.blank.getChar pos = Ascii.space := by
    intro pos
    rw [VGATextDisplayDevice.getChar]
    split <;> rfl
  have proper : ∀ ch ∈ [72, 105, Ascii.newline, 33], isprint ch = true ∨ ch = Ascii.newline := by
    simp only [List.forall_mem_cons, List.not_mem_nil, false_implies, implies_true]
    decide
  exact ⟨final, ran, (puts_shows_last_rows _ blank _ proper final ran).1⟩

end UnlockedTextTerminal

end FlapjackOS.Terminal
