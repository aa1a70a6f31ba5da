import FlapjackOS.Terminal.Page

/-! The terminal scrolls only when the next character is put. Until then its cursor may stand
below the last row. -/

namespace FlapjackOS.Terminal

open Runs Simulation

/-- The single calls that an operation makes. -/
def Operation.strokes : Operation → List Stroke
  | .stroke single => [single]
  | .puts str => (str.takeWhile (· ≠ 0)).map .putchar
  | .putv buf => buf.map .putchar

namespace UnlockedTextTerminal

section
variable (terminal : UnlockedTextTerminal)
include terminal

theorem puts_eq (str : List UInt8) :
    terminal.puts str = run stroke terminal ((str.takeWhile (· ≠ 0)).map .putchar) := by
  induction str generalizing terminal with
  | nil => rfl
  | cons ch rest ih =>
    by_cases last : ch = 0
    · simp [puts, run, last]
    · simp [puts, run, last, ih, stroke]

theorem putv_eq (buf : List UInt8) :
    terminal.putv buf = run stroke terminal (buf.map .putchar) := by
  induction buf generalizing terminal with
  | nil => rfl
  | cons ch rest ih => simp [putv, run, ih, stroke]

theorem perform_eq (operation : Operation) :
    terminal.perform operation = run stroke terminal operation.strokes := by
  cases operation with
  | stroke single => simp [perform, Operation.strokes, run]
  | puts str => exact terminal.puts_eq str
  | putv buf => exact terminal.putv_eq buf

/-- A run of operations is a run of the calls that they make. -/
theorem run_perform (operations : List Operation) :
    run perform terminal operations = run stroke terminal (operations.flatMap Operation.strokes) := by
  induction operations generalizing terminal with
  | nil => rfl
  | cons operation rest ih =>
    rw [List.flatMap_cons, run_append, run, perform_eq]
    simp [ih]

end

section
variable (terminal : UnlockedTextTerminal)

/-- There are `height()` lines, and the cursor is in the line that it is on. -/
structure Safe : Prop where
  count : terminal.lines.size = terminal.height
  inside : ∃ line, terminal.lines.at? terminal.cursor.y = some line ∧
    0 ≤ terminal.cursor.x ∧ terminal.cursor.x ≤ line.size

/-- The index of the cursor's line is inside the buffer. -/
structure Inside : Prop extends terminal.Safe where
  row : 0 ≤ terminal.cursor.y ∧ terminal.cursor.y < terminal.lines.size

/-- Below the last row, no further line break comes, and a character comes only in column 0. -/
def Survives : Stroke → Prop
  | .putchar ch =>
    if ch = 0 then True
    else if ch = Ascii.newline then terminal.cursor.y < terminal.height
    else if ch = Ascii.backspace then True
    else terminal.cursor.y < terminal.height ∨ terminal.cursor.x = 0
  | _ => True

/-- In the last row, neither a line break nor a character in the last column comes. -/
def Remains : Stroke → Prop
  | .putchar ch =>
    if ch = 0 then True
    else if ch = Ascii.newline then terminal.cursor.y + 1 < terminal.height
    else if ch = Ascii.backspace then True
    else terminal.cursor.y + 1 < terminal.height ∨ terminal.cursor.x + 1 < terminal.width
  | _ => True

end

section
variable {terminal : UnlockedTextTerminal} {page : Page}

section
variable (represents : terminal.Represents page)
include represents

theorem Represents.safe : terminal.Safe := by
  obtain ⟨mirrors, proper⟩ := represents
  obtain ⟨lines, line, holds, _, length, _⟩ := mirrors.stored 0
  obtain ⟨line, found, stored⟩ := mirrors.line proper.lowest
  refine ⟨holds.size.trans length, line, by rw [mirrors.cursor_y, found], ?_⟩
  have inside : page.x ≤ page.row.length := proper.inside
  have size : line.size = page.row.length := stored.size
  rw [mirrors.cursor_x, size]
  omega

theorem Represents.inside_iff : terminal.Inside ↔ page.y < consoleHeight := by
  have row := represents.mirrors.cursor_y
  have count : terminal.lines.size = consoleHeight := represents.safe.count
  constructor
  · intro inside
    have below := inside.row.2
    omega
  · intro below
    exact ⟨represents.safe, by omega⟩

theorem Represents.survives_iff (call : Stroke) :
    terminal.Survives call ↔ ∃ next, page.stroke call = some next := by
  obtain ⟨mirrors, proper⟩ := represents
  have column := mirrors.cursor_x
  have row := mirrors.cursor_y
  have height : terminal.height = consoleHeight := rfl
  cases call with
  | moveCursorLeft => exact iff_of_true trivial ⟨_, rfl⟩
  | moveCursorRight => exact iff_of_true trivial ⟨_, rfl⟩
  | moveCursorToEnd => exact iff_of_true trivial ⟨_, rfl⟩
  | putchar ch =>
    rw [Survives, Page.stroke, Page.putchar]
    split
    · exact iff_of_true trivial ⟨_, rfl⟩
    split
    · split
      · exact iff_of_true (by omega) ⟨_, rfl⟩
      · exact iff_of_false (by omega) (by simp)
    split
    · exact iff_of_true trivial ⟨_, rfl⟩
    by_cases above : page.y < consoleHeight
    · rw [proper.put above]
      exact iff_of_true (by omega) ⟨_, rfl⟩
    · rw [proper.put_below (Nat.le_of_not_lt above)]
      by_cases start : page.x = 0
      · exact iff_of_true (by omega) ⟨_, by rw [if_pos start]; rfl⟩
      · exact iff_of_false (by omega) (by simp [start])

/-- On the screen, no call fails, and it leads off the screen exactly if it is not one that remains. -/
theorem Represents.remains_iff (above : page.y < consoleHeight) (call : Stroke) :
    ∃ next, page.stroke call = some next ∧ (terminal.Remains call ↔ next.y < consoleHeight) := by
  obtain ⟨mirrors, proper⟩ := represents
  have column := mirrors.cursor_x
  have row := mirrors.cursor_y
  have height : terminal.height = consoleHeight := rfl
  have width : terminal.width = consoleWidth := rfl
  cases call with
  | moveCursorLeft => exact ⟨_, rfl, iff_of_true trivial above⟩
  | moveCursorRight => exact ⟨_, rfl, iff_of_true trivial above⟩
  | moveCursorToEnd => exact ⟨_, rfl, iff_of_true trivial above⟩
  | putchar ch =>
    rw [Remains, Page.stroke, Page.putchar]
    split
    · exact ⟨_, rfl, iff_of_true trivial above⟩
    split
    · refine ⟨_, rfl, ?_⟩
      rw [Page.settle_y, Page.moveTo_y]
      omega
    split
    · exact ⟨_, rfl, iff_of_true trivial above⟩
    refine ⟨_, by rw [proper.put above]; rfl, ?_⟩
    have here : (page.insert ch).x = page.x ∧ (page.insert ch).y = page.y := ⟨rfl, rfl⟩
    rw [Page.settle_y, Page.advance_y, here.1, here.2]
    split <;> omega

end

/-- The terminal shows some page. -/
def Standing (terminal : UnlockedTextTerminal) : Prop := ∃ page, terminal.Represents page

/-- The terminal shows some page, with the cursor on the screen. -/
def Upright (terminal : UnlockedTextTerminal) : Prop :=
  ∃ page, terminal.Represents page ∧ page.y < consoleHeight

/-- Every terminal that the operations lead to shows some page. -/
theorem standing_of_run {display : VGATextDisplayDevice}
    (ran : run perform (create display) operations = some terminal) : terminal.Standing := by
  rw [run_perform] at ran
  refine run_preserves (fun state call next _ standing stepped => ?_) ⟨_, represents_create display⟩ ran
  obtain ⟨page, represents⟩ := standing
  obtain ⟨after, _, result⟩ := rel_some_left (stepped ▸ represents.stroke call)
  exact ⟨after, result⟩

end

/-- From a new terminal, no assertion fails and the cursor stays in its line if and only if every
call survives; moreover the index of every line is inside the buffer if and only if every call
remains on the screen. -/
theorem terminal_safe_iff (display : VGATextDisplayDevice) (operations : List Operation) :
    let strokes := operations.flatMap Operation.strokes
    run perform (create display) operations = run stroke (create display) strokes ∧
      (Always stroke Safe (create display) strokes ↔ Legal stroke Survives (create display) strokes) ∧
      (Always stroke Inside (create display) strokes ↔ Legal stroke Remains (create display) strokes) := by
  have possible : Legal stroke (fun _ _ => True) (create display) (operations.flatMap Operation.strokes) :=
    legal_of_forall fun _ _ => trivial
  have represents := represents_create display
  have standing : (create display).Standing := ⟨_, represents⟩
  have upright : (create display).Upright := ⟨_, represents, show 0 < consoleHeight by decide⟩
  refine ⟨run_perform _ _, always_iff_legal ?_ ?_ ?_ possible standing,
    always_iff_legal ?_ ?_ ?_ possible upright⟩
  · rintro terminal ⟨page, represents⟩
    exact represents.safe
  · rintro terminal call ⟨page, represents⟩ _ survives
    obtain ⟨after, stepped⟩ := (represents.survives_iff call).mp survives
    obtain ⟨next, moved, result⟩ := rel_some_right (stepped ▸ represents.stroke call)
    exact ⟨next, moved, after, result⟩
  · rintro terminal call next ⟨page, represents⟩ _ fails stepped
    obtain ⟨after, moved, _⟩ := rel_some_left (stepped ▸ represents.stroke call)
    exact absurd ((represents.survives_iff call).mpr ⟨after, moved⟩) fails
  · rintro terminal ⟨page, represents, above⟩
    exact represents.inside_iff.mpr above
  · rintro terminal call ⟨page, represents, above⟩ _ remains
    obtain ⟨after, stepped, row⟩ := represents.remains_iff above call
    obtain ⟨next, moved, result⟩ := rel_some_right (stepped ▸ represents.stroke call)
    exact ⟨next, moved, after, result, row.mp remains⟩
  · rintro terminal call next ⟨page, represents, above⟩ _ leaves stepped inside
    obtain ⟨after, moves, row⟩ := represents.remains_iff above call
    obtain ⟨shown, moved, result⟩ := rel_some_left (stepped ▸ represents.stroke call)
    cases moves.symm.trans moved
    exact leaves (row.mpr (result.inside_iff.mp inside))

/-- Two line breaks behind the last row, with nothing put in between, reach the assertion of `index_at`. -/
theorem newlines_fail :
    run perform (create .blank) [.puts (List.replicate 26 Ascii.newline)] = none := by
  decide +kernel

end UnlockedTextTerminal

end FlapjackOS.Terminal
