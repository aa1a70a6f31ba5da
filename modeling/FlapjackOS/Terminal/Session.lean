import FlapjackOS.Terminal.Editing

namespace FlapjackOS.Terminal

open Runs Simulation

/-- One call of `getline`: its variables, and the terminal. -/
structure Session where
  editor : LineEditor
  terminal : UnlockedTextTerminal

namespace Session

/-- The calls before the loop put the prompt and a space. -/
def start (history : LinkedList Line) (prompt : RingBuffer UInt8 maxPrompt) (terminal : UnlockedTextTerminal) :
    Option Session := do
  let terminal ← terminal.putv prompt.elements
  let terminal ← terminal.putchar Ascii.space
  return { editor := .start history, terminal }

/-- One event is handled. Once there is a newline, no further event is taken. -/
def step (session : Session) (event : KeyboardEvent) : Option Session :=
  if session.editor.haveANewline then some session
  else do
    let (editor, strokes) ← session.editor.handle event
    let terminal ← run UnlockedTextTerminal.stroke session.terminal strokes
    return { editor, terminal }

/-- Before the newline, the line of the terminal's cursor is the prompt, a space and the input, and
the two cursors agree. -/
def InStep (prompt : List UInt8) (session : Session) : Prop :=
  session.editor.haveANewline = false →
    ∃ line, session.terminal.lines.at? session.terminal.cursor.y = some line ∧
      line.data.elements = prompt ++ Ascii.space :: session.editor.userInput.elements ∧
      session.terminal.cursor.x = prompt.length + 1 + session.editor.linearCursor

end Session

namespace LineEditor

/-- The line that is recalled ends before the right margin, behind a prompt of this length and a space. -/
def RecallFits (prompt : Nat) (editor : LineEditor) (target : Int) : Prop :=
  ∀ line ∈ recalled { editor with historyCursor := target }, prompt + 1 + line.size < consoleWidth

/-- The event keeps the line, behind a prompt of this length and a space, before the right margin. -/
def KeyFits (prompt : Nat) (editor : LineEditor) (ch : UInt8) : Keycode → Prop
  | .numpad4 | .leftArrow | .numpad6 | .rightArrow => True
  | .numpad2 | .downArrow =>
    editor.historyCursor ≠ -1 → editor.RecallFits prompt (editor.historyCursor - 1)
  | .numpad8 | .upArrow =>
    editor.historyCursor < (editor.history.count : Int) - 1 → editor.RecallFits prompt (editor.historyCursor + 1)
  | .other _ =>
    (isprint ch ∨ ch = Ascii.tab) ∧ editor.userInput.size < lineCapacity →
      prompt + 1 + editor.userInput.size < consoleWidth ∧ prompt + 1 + editor.linearCursor + 1 < consoleWidth

def Fits (prompt : Nat) (editor : LineEditor) (event : KeyboardEvent) : Prop :=
  editor.haveANewline = false → event.state = .pressed → editor.KeyFits prompt event.ch event.key

instance : Decidable (RecallFits prompt editor target) := inferInstanceAs (Decidable (∀ line ∈ _, _))

instance : ∀ key, Decidable (KeyFits prompt editor ch key)
  | .numpad4 | .leftArrow | .numpad6 | .rightArrow => .isTrue trivial
  | .numpad2 | .downArrow | .numpad8 | .upArrow => inferInstanceAs (Decidable (_ → RecallFits _ _ _))
  | .other _ => inferInstanceAs (Decidable (_ ∧ _ → _ ∧ _))

instance : Decidable (Fits prompt editor event) := inferInstanceAs (Decidable (_ → _ → KeyFits _ _ _ _))

theorem setPrompt_holds {prompt : RingBuffer UInt8 maxPrompt} (held : prompt.Holds chars) (size : Nat)
    (str : List UInt8) :
    ∃ next, setPrompt prompt size str = some next ∧
      next.Holds (((str.take size).takeWhile (· ≠ 0)).take maxPrompt) := by
  obtain ⟨cleared, clears, empty⟩ := held.clear
  refine ⟨_, by rw [setPrompt, clears]; rfl, empty.pushAll ?_⟩
  rw [List.length_nil, Nat.zero_add]
  exact List.length_take_le _ _

section
variable {history : History} {editor : LineEditor} {draft : Draft} {target : Int}

theorem Represents.recallFits_iff (represents : Represents history editor draft)
    (range : -1 ≤ target ∧ target < history.entries.length) :
    editor.RecallFits prompt target ↔
      prompt + 1 + (draft.recalled history.entries target).length < consoleWidth := by
  obtain ⟨line, found, holds⟩ := represents.recalled range
  rw [RecallFits, found, ← holds.size]
  simp

theorem Represents.backspaceInside_iff (represents : Represents history editor draft) (running : draft.done = false) :
    editor.BackspaceInside event ↔ draft.BackspaceInside event := by
  have size := represents.input.size
  have cursor := represents.cursor
  have positive : 0 < editor.linearCursor ↔ 0 < draft.cursor := by omega
  rw [LineEditor.BackspaceInside, Draft.BackspaceInside, size, positive]
  simp [represents.done, running]

theorem Represents.fits_iff (represents : Represents history editor draft)
    (running : draft.done = false) :
    editor.Fits prompt event ↔ draft.Fits (prompt + 1) history.entries event := by
  have length : editor.history.count = history.entries.length := by rw [represents.recorded, history.lists.count]
  have browsed := represents.browsed
  obtain ⟨lowest, highest⟩ := represents.range
  have size := represents.input.size
  have cursor := represents.cursor
  have down : (editor.historyCursor ≠ -1 → editor.RecallFits prompt (editor.historyCursor - 1)) ↔
      (draft.browsed ≠ -1 →
        prompt + 1 + (draft.recalled history.entries (draft.browsed - 1)).length < consoleWidth) := by
    rw [browsed]
    refine forall_congr' fun browsing => represents.recallFits_iff ?_
    omega
  have up : (editor.historyCursor < (editor.history.count : Int) - 1 →
        editor.RecallFits prompt (editor.historyCursor + 1)) ↔
      (draft.browsed < (history.entries.length : Int) - 1 →
        prompt + 1 + (draft.recalled history.entries (draft.browsed + 1)).length < consoleWidth) := by
    rw [browsed, length]
    refine forall_congr' fun more => represents.recallFits_iff ?_
    omega
  have type : editor.KeyFits prompt event.ch (.other 0) ↔
      (Plain event.ch ∧ draft.input.length < lineCapacity →
        prompt + 1 + draft.input.length < consoleWidth ∧ prompt + 1 + draft.cursor + 1 < consoleWidth) := by
    have margin : (prompt : Int) + 1 + editor.linearCursor + 1 < consoleWidth ↔
        prompt + 1 + draft.cursor + 1 < consoleWidth := by omega
    rw [KeyFits, size, margin, Plain]
  rw [LineEditor.Fits, Draft.Fits, represents.done]
  refine (forall_prop_of_true running).trans (forall_congr' fun pressed => ?_)
  cases event.key with
  | numpad4 | leftArrow | numpad6 | rightArrow => exact Iff.rfl
  | numpad2 | downArrow => exact down
  | numpad8 | upArrow => exact up
  | other code => exact type

end

end LineEditor

namespace Session

/-- The event neither passes the start of the line nor reaches the right margin. -/
def Follows (prompt : Nat) (session : Session) (event : KeyboardEvent) : Prop :=
  session.editor.BackspaceInside event ∧ session.editor.Fits prompt event

instance : Decidable (Follows prompt session event) := inferInstanceAs (Decidable (_ ∧ _))

/-- What stands before the input. -/
def lead (prompt : List UInt8) : List UInt8 := prompt ++ [Ascii.space]

theorem lead_length (prompt : List UInt8) : (lead prompt).length = prompt.length + 1 := List.length_append

/-- The editor holds a draft and the terminal a page, which shows the draft until there is a newline. -/
structure Joined (prompt : List UInt8) (history : History) (session : Session) (draft : Draft) (page : Page) :
    Prop where
  editor : LineEditor.Represents history session.editor draft
  terminal : session.terminal.Represents page
  clean : draft.Clean
  shows : draft.done = false → page.Shows (lead prompt) draft

def Coupled (prompt : List UInt8) (history : History) (session : Session) : Prop :=
  ∃ draft page, Joined prompt history session draft page

section
variable {history : History} {prompt : List UInt8} {session next : Session} {draft : Draft} {page : Page}

theorem inStep_iff {input : List UInt8} (terminal : session.terminal.Represents page)
    (holds : session.editor.userInput.Holds input) (running : session.editor.haveANewline = false) :
    session.InStep prompt ↔
      page.row = lead prompt ++ input ∧ (page.x : Int) = (lead prompt).length + session.editor.linearCursor := by
  obtain ⟨line, found, stored⟩ := terminal.mirrors.line terminal.proper.lowest
  have text : line.data.elements = page.row := stored.elements_eq
  have split : lead prompt ++ input = prompt ++ Ascii.space :: input := by simp [lead]
  rw [InStep, terminal.mirrors.cursor_x, terminal.mirrors.cursor_y, found, holds.elements_eq, split, lead_length]
  simp [running, text]

theorem Joined.inStep (joined : Joined prompt history session draft page) : session.InStep prompt := by
  intro running
  have shows := joined.shows (joined.editor.done.symm.trans running)
  have cursor := joined.editor.cursor
  refine (inStep_iff joined.terminal joined.editor.input running).mpr ⟨shows.row, ?_⟩ running
  rw [shows.x, cursor]
  exact Int.natCast_add _ _

theorem step_running {editor : LineEditor} {strokes : List Stroke} (running : session.editor.haveANewline = false)
    (handles : session.editor.handle event = some (editor, strokes)) :
    session.step event =
      (run UnlockedTextTerminal.stroke session.terminal strokes).map fun terminal => { editor, terminal } := by
  rw [step, running, if_neg Bool.false_ne_true, handles, Option.map_eq_bind]
  rfl

/-- The terminal makes the same calls as its page. -/
theorem run_represents {terminal : UnlockedTextTerminal} (represents : terminal.Represents page)
    (strokes : List Stroke) :
    Option.Rel UnlockedTextTerminal.Represents (run UnlockedTextTerminal.stroke terminal strokes)
      (run Page.stroke page strokes) :=
  run_rel (fun _ _ call _ here => here.stroke call) represents

section
variable (joined : Joined prompt history session draft page)
  (cleans : ∀ entry ∈ history.entries, ∀ ch ∈ entry, Plain ch)
include joined cleans

/-- An event that follows keeps editor and terminal in step. -/
theorem Joined.step (follows : session.Follows prompt.length event) :
    ∃ next, session.step event = some next ∧ next.Coupled prompt history := by
  have done := joined.editor.done
  cases running : draft.done with
  | true => exact ⟨session, if_pos (done.trans running), draft, page, joined⟩
  | false =>
    obtain ⟨editor, handles, result⟩ := joined.editor.handle running follows.1
    have inside := (joined.editor.backspaceInside_iff running).mp follows.1
    have fits := (joined.editor.fits_iff running).mp follows.2
    rw [← lead_length] at fits
    obtain ⟨shown, ran, shows⟩ :=
      (joined.shows running).handle joined.clean cleans joined.editor.range.1 inside fits
    obtain ⟨terminal, runs, represents⟩ := rel_some_right (ran ▸ run_represents joined.terminal _)
    refine ⟨{ editor, terminal }, ?_, _, shown, result, represents, joined.clean.handle cleans event, shows⟩
    rw [step_running (done.trans running) handles, runs]
    rfl

/-- After any other event they are out of step. -/
theorem Joined.violation (short : prompt.length ≤ maxPrompt)
    (leaves : ¬ session.Follows prompt.length event) (stepped : session.step event = some next) :
    ¬ next.InStep prompt := by
  by_cases inside : session.editor.BackspaceInside event
  · have unfit : ¬ session.editor.Fits prompt.length event := fun fits => leaves ⟨inside, fits⟩
    have running : session.editor.haveANewline = false := (Classical.not_imp.mp unfit).1
    have drafting : draft.done = false := joined.editor.done.symm.trans running
    obtain ⟨editor, handles, result⟩ := joined.editor.handle drafting inside
    rw [step_running running handles] at stepped
    obtain ⟨terminal, runs, rfl⟩ := Option.map_eq_some_iff.mp stepped
    obtain ⟨shown, ran, represents⟩ := rel_some_left (runs ▸ run_represents joined.terminal _)
    rw [joined.editor.fits_iff drafting, ← lead_length] at unfit
    have room : (lead prompt).length < consoleWidth := by
      rw [lead_length]
      exact Nat.lt_of_le_of_lt (Nat.succ_le_succ short) (by decide)
    obtain ⟨continues, apart⟩ := Page.handle_overflow joined.clean cleans joined.editor.range.1
      joined.editor.inside room unfit represents.proper ran
    intro inStep
    obtain ⟨row, x⟩ := (inStep_iff represents result.input (result.done.trans (continues.trans drafting))).mp inStep
    have cursor : editor.linearCursor = _ := result.cursor
    refine apart ⟨row, ?_⟩
    simp only [cursor] at x
    omega
  · obtain ⟨running, handles⟩ : _ ∧ session.editor.handle event = _ :=
      joined.editor.handle_outside inside
    have shows := joined.shows (joined.editor.done.symm.trans running)
    rw [step_running running handles] at stepped
    cases stepped
    intro inStep
    let moved : Session := { session with editor := { session.editor with linearCursor := -1 } }
    have terminal : moved.terminal.Represents page := joined.terminal
    obtain ⟨_, x⟩ := (inStep_iff terminal joined.editor.input running).mp inStep
    have place : page.x = (lead prompt).length + draft.cursor := shows.x
    have before : (page.x : Int) = (lead prompt).length + -1 := x
    omega

end

/-- The prompt and the space are put on an empty line. -/
theorem start_coupled {prompt : RingBuffer UInt8 maxPrompt} {chars : List UInt8} {terminal : UnlockedTextTerminal}
    (held : prompt.Holds chars) (printable : ∀ ch ∈ chars, isprint ch = true) (standing : terminal.Standing)
    (first : terminal.cursor.x = 0)
    (blank : terminal.cursor.y = terminal.height ∨
      ∃ line, terminal.lines.at? terminal.cursor.y = some line ∧ line.size = 0) :
    ∃ session, Session.start history.list prompt terminal = some session ∧ session.Coupled chars history := by
  obtain ⟨page, represents⟩ := standing
  have x : page.x = 0 := by
    have := represents.mirrors.cursor_x
    omega
  have empty : consoleHeight ≤ page.y ∨ page.row = [] := by
    rw [represents.mirrors.cursor_y] at blank
    rcases blank with below | ⟨line, found, size⟩
    · exact .inl (Nat.le_of_eq (Int.ofNat_inj.mp below).symm)
    · obtain ⟨stored, here, holds⟩ := represents.mirrors.line represents.proper.lowest
      cases here.symm.trans found
      exact .inr (List.eq_nil_of_length_eq_zero (holds.size.symm.trans size))
  have plain : ∀ ch ∈ lead chars, Plain ch := by
    intro ch member
    rcases List.mem_append.mp member with member | member
    · exact .inl (printable ch member)
    · rw [List.mem_singleton.mp member]
      decide
  have fits : (lead chars).length < consoleWidth := by
    rw [lead_length]
    exact Nat.lt_of_le_of_lt (Nat.succ_le_succ held.fits) (by decide)
  obtain ⟨shown, ran, result⟩ := represents.proper.begins x empty plain (by simp [lead]) fits
  obtain ⟨after, runs, represents⟩ := rel_some_right (ran ▸ run_represents represents _)
  refine ⟨{ editor := .start history.list, terminal := after }, ?_, ⟨false, [], [], 0, -1⟩, shown,
    LineEditor.represents_start, represents, ⟨by simp, by simp⟩, fun _ => by simpa [Page.Shows] using result⟩
  have puts : (terminal.putv prompt.elements).bind (fun next => next.putchar Ascii.space) = some after := by
    rw [held.elements_eq, UnlockedTextTerminal.putv_eq, ← runs, lead, List.map_append, run_append]
    congr 1
    funext next
    simp [run, UnlockedTextTerminal.stroke]
  obtain ⟨prompted, first, second⟩ := Option.bind_eq_some_iff.mp puts
  simp [Session.start, first, second]

end

/-- For every prompt, every history and every terminal with the cursor at the start of an empty line, the
editor and the terminal stay in step if and only if no backspace comes at the start of a line that is not
empty, and no line reaches the right margin. -/
theorem in_step_iff (prompt : RingBuffer UInt8 maxPrompt) (chars : List UInt8) (held : prompt.Holds chars)
    (printable : ∀ ch ∈ chars, isprint ch = true) (history : History)
    (printables : ∀ entry ∈ history.entries, ∀ ch ∈ entry, isprint ch = true)
    (terminal : UnlockedTextTerminal) (standing : terminal.Standing) (first : terminal.cursor.x = 0)
    (blank : terminal.cursor.y = terminal.height ∨
      ∃ line, terminal.lines.at? terminal.cursor.y = some line ∧ line.size = 0)
    (events : List KeyboardEvent) :
    ∃ session, start history.list prompt terminal = some session ∧
      (Always step (InStep chars) session events ↔ Legal step (Follows chars.length) session events) := by
  have cleans : ∀ entry ∈ history.entries, ∀ ch ∈ entry, Plain ch :=
    fun entry member ch inside => .inl (printables entry member ch inside)
  obtain ⟨session, started, coupled⟩ :
      ∃ session, start history.list prompt terminal = some session ∧ session.Coupled chars history :=
    start_coupled held printable standing first blank
  have possible : Legal step (fun _ _ => True) session events := legal_of_forall fun _ _ => trivial
  refine ⟨session, started, always_iff_legal ?_ ?_ ?_ possible coupled⟩
  · rintro session ⟨draft, page, joined⟩
    exact joined.inStep
  · rintro session event ⟨draft, page, joined⟩ _ follows
    exact joined.step cleans follows
  · rintro session event next ⟨draft, page, joined⟩ _ leaves stepped
    exact joined.violation cleans held.fits leaves stepped

/-- A terminal with one line of output. -/
def sampleTerminal : Option UnlockedTextTerminal :=
  run UnlockedTextTerminal.perform (.create .blank) [.puts [97, 10]]

/-- The history has the entry `b`. -/
def sampleHistory : Option (LinkedList Line) := LineEditor.addHistory .nil (RingBuffer.nil.pushBack 98).1

/-- `a` is typed, replaced by the entry of the history, and recalled. -/
def sampleEvents : List KeyboardEvent :=
  [LineEditor.press 0 97, ⟨.upArrow, .pressed, 0⟩, ⟨.downArrow, .pressed, 0⟩]

theorem in_step_iff_sample :
    ∃ terminal prompt list session, sampleTerminal = some terminal ∧
      LineEditor.setPrompt .nil 1 [62] = some prompt ∧ sampleHistory = some list ∧
      start list prompt terminal = some session ∧ Always step (InStep [62]) session sampleEvents := by
  obtain ⟨terminal, ran⟩ : ∃ terminal, sampleTerminal = some terminal :=
    Option.isSome_iff_exists.mp (by decide +kernel)
  have place : ∀ terminal ∈ sampleTerminal, terminal.cursor.x = 0 ∧ terminal.getLineWidth = some 0 := by
    decide +kernel
  obtain ⟨line, found, size⟩ := Option.bind_eq_some_iff.mp (place terminal ran).2
  obtain ⟨prompt, sets, held⟩ := LineEditor.setPrompt_holds RingBuffer.holds_nil 1 [62]
  obtain ⟨entry, pushes, holds⟩ :=
    RingBuffer.holds_nil.pushBack (show ([] : List UInt8).length < lineCapacity by decide) (98 : UInt8)
  obtain ⟨history, added, entries⟩ := History.nil.add holds
  have recorded : sampleHistory = some history.list := by rw [sampleHistory, pushes, ← added]; rfl
  obtain ⟨session, started, same⟩ := in_step_iff prompt [62] held (List.forall_mem_singleton.mpr rfl) history
    (entries ▸ List.forall_mem_singleton.mpr (List.forall_mem_singleton.mpr rfl)) terminal
    (UnlockedTextTerminal.standing_of_run ran) (place terminal ran).1 (.inr ⟨line, found, Option.some.inj size⟩)
    sampleEvents
  have legal : ∀ terminal ∈ sampleTerminal, ∀ prompt ∈ LineEditor.setPrompt .nil 1 [62], ∀ list ∈ sampleHistory,
      ∀ session ∈ start list prompt terminal, Legal step (Follows 1) session sampleEvents := by
    decide +kernel
  exact ⟨terminal, prompt, _, session, ran, sets, recorded, started,
    same.mpr (legal terminal ran prompt sets _ recorded session started)⟩

/-- Behind a prompt of two characters, the last character that the input has room for is put in the last
column, and the terminal's cursor moves to the next row. -/
theorem typed_line_wraps :
    ∃ prompt session final, LineEditor.setPrompt .nil 2 [62, 62] = some prompt ∧
      start .nil prompt (.create .blank) = some session ∧
      run step session (List.replicate lineCapacity (LineEditor.press 0 97)) = some final ∧
      final.terminal.cursor = ⟨0, 1⟩ ∧ ¬ final.InStep [62, 62] := by
  have reached : ((do
      let prompt ← LineEditor.setPrompt .nil 2 [62, 62]
      let session ← start .nil prompt (.create .blank)
      let final ← run step session (List.replicate lineCapacity (LineEditor.press 0 97))
      return (final.terminal.cursor, final.editor.haveANewline, final.editor.linearCursor)) :
      Option (Point2 × Bool × Int)) = some (⟨0, 1⟩, false, 77) := by
    decide +kernel
  obtain ⟨prompt, sets, reached⟩ := Option.bind_eq_some_iff.mp reached
  obtain ⟨session, started, reached⟩ := Option.bind_eq_some_iff.mp reached
  obtain ⟨final, ran, reached⟩ := Option.bind_eq_some_iff.mp reached
  obtain ⟨cursor, running, linear⟩ : final.terminal.cursor = ⟨0, 1⟩ ∧ final.editor.haveANewline = false ∧
      final.editor.linearCursor = 77 := by
    simpa using reached
  refine ⟨prompt, session, final, sets, started, ran, cursor, fun inStep => ?_⟩
  obtain ⟨_, _, _, column⟩ := inStep running
  rw [cursor, linear] at column
  revert column
  decide

end Session

end FlapjackOS.Terminal
