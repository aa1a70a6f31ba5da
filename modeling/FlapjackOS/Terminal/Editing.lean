import FlapjackOS.Terminal.Draft
import FlapjackOS.Terminal.Safety

namespace FlapjackOS.Terminal

open Runs

namespace Page

/-- The cursor stands on the screen, in a row with these characters. -/
structure At (page : Page) (row : List UInt8) (x : Nat) : Prop where
  proper : page.Proper
  above : page.y < consoleHeight
  row : page.row = row
  x : page.x = x

section
variable {page next : Page} {row lead : List UInt8} {x target : Nat}

section
variable (here : page.At row x)
include here

theorem At.inside : x ≤ row.length := by
  rw [← here.row, ← here.x]
  exact here.proper.inside

theorem At.moveTo (inside : target ≤ row.length) :
    (page.moveTo target page.y).settle.At row target := by
  have bound : target ≤ (page.rowAt page.y).length := by
    change target ≤ page.row.length
    rwa [here.row]
  exact ⟨(here.proper.moveTo here.proper.lowest bound).settle, here.above, here.row, rfl⟩

theorem At.left : ∃ next, page.stroke .moveCursorLeft = some next ∧ next.At row (x - 1) := by
  have inside : x - 1 ≤ row.length := Nat.le_trans (Nat.sub_le _ _) here.inside
  exact ⟨_, by rw [Page.stroke, here.x], here.moveTo inside⟩

theorem At.right (before : x < row.length) :
    ∃ next, page.stroke .moveCursorRight = some next ∧ next.At row (x + 1) := by
  have place : min (page.x + 1) page.row.length = x + 1 := by
    rw [here.x, here.row]
    exact Nat.min_eq_left before
  exact ⟨_, by rw [Page.stroke, place], here.moveTo before⟩

theorem At.toEnd : ∃ next, page.stroke .moveCursorToEnd = some next ∧ next.At row row.length :=
  ⟨_, by rw [Page.stroke, here.row], here.moveTo (Nat.le_refl _)⟩

theorem At.erase :
    ∃ next, page.stroke (.putchar Ascii.backspace) = some next ∧ next.At (row.eraseIdx (x - 1)) (x - 1) := by
  have count : (page.moveTo (page.x - 1) page.y).rows.length = consoleHeight := here.proper.count
  refine ⟨page.erase.settle, rfl, here.proper.erase.settle, here.above, ?_, ?_⟩
  · rw [← here.row, ← here.x]
    exact setRow_row count _
  · rw [← here.x]
    rfl

theorem At.newline :
    ∃ next, page.stroke (.putchar Ascii.newline) = some next ∧ next.y = page.y + 1 :=
  ⟨_, if_pos here.above, rfl⟩

theorem At.put (plain : Plain ch) (room : row.length < consoleWidth) (before : x + 1 < consoleWidth) :
    ∃ next, page.stroke (.putchar ch) = some next ∧ next.At (row.insertIdx x ch) (x + 1) := by
  have proper := here.proper
  have stays : ¬ consoleWidth ≤ (page.insert ch).x + 1 := by
    change ¬ consoleWidth ≤ page.x + 1
    rw [here.x]
    omega
  have inserted : (page.insert ch).row = row.insertIdx x ch := by
    rw [insert_row proper.count, here.row, here.x, if_pos room]
  refine ⟨(page.insert ch).advance.settle, ?_, ?_, ?_, ?_, ?_⟩
  · rw [stroke_plain plain, proper.put here.above]
    rfl
  · exact ((proper.insert ch).advance here.above (proper.insert_room ch)).settle
  · rw [settle_y, advance_y, if_neg stays]
    exact here.above
  · rw [settle_row, Page.advance, if_neg stays]
    exact inserted
  · rw [settle_x, advance_x, if_neg stays]
    exact congrArg (· + 1) here.x

end

theorem advance_x_lt (page : Page) : page.advance.x < consoleWidth := by
  rw [advance_x]
  split
  · decide
  · omega

/-- Behind a character that was put, the cursor is before the right margin. -/
theorem stroke_plain_x (plain : Plain ch) (stepped : page.stroke (.putchar ch) = some next) :
    next.x < consoleWidth := by
  rw [stroke_plain plain, Option.map_eq_some_iff] at stepped
  obtain ⟨advanced, puts, rfl⟩ := stepped
  simp only [Page.put, Option.ite_none_right_eq_some] at puts
  obtain ⟨_, same⟩ := puts
  cases same
  exact advance_x_lt _

/-- As many backspaces as there are characters behind `lead` leave `lead`. -/
theorem At.erases (here : page.At (lead ++ row) (lead ++ row).length) :
    ∃ next, run Page.stroke page (List.replicate row.length (.putchar Ascii.backspace)) = some next ∧
      next.At lead lead.length := by
  induction row using List.reverseRecOn generalizing page with
  | nil => exact ⟨page, rfl, by simpa using here⟩
  | append_singleton row ch ih =>
    obtain ⟨erased, erases, shorter⟩ := here.erase
    rw [← List.append_assoc, List.eraseIdx_length_sub_one, List.dropLast_concat, List.length_append,
      List.length_singleton, Nat.add_sub_cancel] at shorter
    obtain ⟨next, ran, result⟩ := ih shorter
    refine ⟨next, ?_, result⟩
    rw [List.length_append, List.length_singleton, List.replicate_succ, run, erases]
    exact ran

/-- Characters that fit before the right margin are appended. -/
theorem At.types (here : page.At lead lead.length) (plain : ∀ ch ∈ row, Plain ch)
    (fits : lead.length + row.length < consoleWidth) :
    ∃ next, run Page.stroke page (row.map .putchar) = some next ∧
      next.At (lead ++ row) (lead.length + row.length) := by
  induction row generalizing page lead with
  | nil => exact ⟨page, rfl, by simpa using here⟩
  | cons ch row ih =>
    rw [List.length_cons] at fits
    have before : lead.length + 1 < consoleWidth := by omega
    obtain ⟨typed, types, longer⟩ := here.put (plain ch List.mem_cons_self) (by omega) before
    rw [List.insertIdx_length_self] at longer
    have length : (lead ++ [ch]).length = lead.length + 1 := by simp
    obtain ⟨next, ran, result⟩ := ih (length ▸ longer)
      (fun other member => plain other (List.mem_cons_of_mem _ member)) (by omega)
    rw [List.append_assoc, List.singleton_append, length, Nat.add_assoc, Nat.add_comm 1] at result
    exact ⟨next, by simp [run, types, ran], result⟩

/-- A text begins at the start of an empty row, or on a new row if the cursor is below the screen. -/
theorem Proper.begins (proper : page.Proper) (start : page.x = 0)
    (empty : consoleHeight ≤ page.y ∨ page.row = []) (plain : ∀ ch ∈ row, Plain ch) (occupied : row ≠ [])
    (fits : row.length < consoleWidth) :
    ∃ next, run Page.stroke page (row.map .putchar) = some next ∧ next.At row row.length := by
  have types : ∀ page : Page, page.At [] 0 →
      ∃ next, run Page.stroke page (row.map .putchar) = some next ∧ next.At row row.length := by
    intro page here
    have fits : ([] : List UInt8).length + row.length < consoleWidth := by simpa using fits
    have start : page.At [] ([] : List UInt8).length := here
    simpa using start.types plain fits
  by_cases above : page.y < consoleHeight
  · exact types page ⟨proper, above, empty.resolve_left (Nat.not_le_of_lt above), start⟩
  · -- the first character scrolls, and is put as on the scrolled page
    have scrolled : page.scroll.At [] 0 := by
      refine ⟨proper.scroll start, ?_, scroll_row proper.count, by rw [scroll_x, start]⟩
      rw [scroll_y]
      decide
    obtain ⟨next, ran, result⟩ := types page.scroll scrolled
    refine ⟨next, ?_, result⟩
    cases row with
    | nil => exact absurd rfl occupied
    | cons ch rest =>
      have same : page.stroke (.putchar ch) = page.scroll.stroke (.putchar ch) := by
        have character := plain ch List.mem_cons_self
        rw [stroke_plain character, stroke_plain character, proper.put_below (Nat.le_of_not_lt above),
          if_pos start, scrolled.proper.put scrolled.above]
      rw [List.map_cons, run, same]
      exact ran

end

end Page

/-- The characters of the draft are ones that the editor takes. -/
structure Draft.Clean (draft : Draft) : Prop where
  input : ∀ ch ∈ draft.input, Plain ch
  stash : ∀ ch ∈ draft.stash, Plain ch

/-- The cursor of the page is in the line that is edited, behind `lead`. -/
abbrev Page.Shows (page : Page) (lead : List UInt8) (draft : Draft) : Prop :=
  page.At (lead ++ draft.input) (lead.length + draft.cursor)

namespace Draft

/-- The event keeps the draft, behind a lead of this length, before the right margin. -/
def Fits (lead : Nat) (entries : List (List UInt8)) (draft : Draft) (event : KeyboardEvent) : Prop :=
  event.state = .pressed →
    match event.key with
    | .numpad4 | .leftArrow | .numpad6 | .rightArrow => True
    | .numpad2 | .downArrow =>
      draft.browsed ≠ -1 → lead + (draft.recalled entries (draft.browsed - 1)).length < consoleWidth
    | .numpad8 | .upArrow =>
      draft.browsed < (entries.length : Int) - 1 →
        lead + (draft.recalled entries (draft.browsed + 1)).length < consoleWidth
    | .other _ =>
      Plain event.ch ∧ draft.input.length < lineCapacity →
        lead + draft.input.length < consoleWidth ∧ lead + draft.cursor + 1 < consoleWidth

/-- A backspace at the start of the line finds it empty. -/
def BackspaceInside (draft : Draft) (event : KeyboardEvent) : Prop :=
  event.state = .pressed → event.key.isDefault = true → event.ch = Ascii.backspace →
    0 < draft.input.length → 0 < draft.cursor

section
variable {entries : List (List UInt8)} {draft : Draft} {target : Int}

theorem Clean.recalled (clean : draft.Clean) (cleans : ∀ entry ∈ entries, ∀ ch ∈ entry, Plain ch) (target : Int) :
    ∀ ch ∈ draft.recalled entries target, Plain ch := by
  rw [Draft.recalled]
  split
  · exact clean.stash
  · intro ch member
    by_cases inside : target.toNat < entries.length
    · rw [List.getD_eq_getElem _ _ inside] at member
      exact cleans _ (List.getElem_mem inside) ch member
    · rw [List.getD_eq_default _ _ (Nat.le_of_not_lt inside)] at member
      cases member

theorem recalled_stashed (entry : target ≠ -1) :
    draft.stashed.recalled entries target = draft.recalled entries target := by
  rw [recalled, recalled, if_neg entry, if_neg entry]

theorem Clean.stashed (clean : draft.Clean) : draft.stashed.Clean := by
  rw [Draft.stashed]
  split
  · exact ⟨clean.input, clean.input⟩
  · exact clean

theorem stashed_eq (draft : Draft) :
    draft.stashed = { draft with stash := if draft.browsed = -1 then draft.input else draft.stash } := by
  rw [stashed]
  split <;> rfl

section
variable (clean : draft.Clean)
include clean

theorem Clean.pressBackspace : draft.pressBackspace.1.Clean := by
  rw [Draft.pressBackspace]
  split
  · exact ⟨fun ch member => clean.input ch (List.mem_of_mem_eraseIdx member), clean.stash⟩
  · exact clean

theorem Clean.pressCharacter (ch : UInt8) : (draft.pressCharacter ch).1.Clean := by
  rw [Draft.pressCharacter]
  split
  · next typed =>
    refine ⟨fun other member => ?_, clean.stash⟩
    rcases List.eq_or_mem_of_mem_insertIdx member with rfl | member
    · exact typed.1
    · exact clean.input other member
  · exact clean

/-- Only characters that the editor takes come into the draft. -/
theorem Clean.handle (cleans : ∀ entry ∈ entries, ∀ ch ∈ entry, Plain ch) (event : KeyboardEvent) :
    (draft.handle entries event).1.Clean := by
  rw [Draft.handle]
  split
  · exact clean
  · cases event.key with
    | numpad4 | leftArrow =>
      simp only [Draft.pressLeft]
      split
      · exact ⟨clean.input, clean.stash⟩
      · exact clean
    | numpad6 | rightArrow =>
      simp only [Draft.pressRight]
      split
      · exact ⟨clean.input, clean.stash⟩
      · exact clean
    | numpad2 | downArrow =>
      simp only [Draft.pressDown]
      split
      · exact ⟨clean.recalled cleans _, clean.stash⟩
      · exact clean
    | numpad8 | upArrow =>
      simp only [Draft.pressUp]
      split
      · exact ⟨clean.stashed.recalled cleans _, clean.stashed.stash⟩
      · exact clean
    | other code =>
      by_cases erases : event.ch = Ascii.backspace
      · simp only [erases, if_true]
        exact clean.pressBackspace
      · by_cases ends : event.ch = Ascii.newline
        · simp only [ends, if_true]
          exact ⟨clean.input, clean.stash⟩
        · simp only [erases, ends, if_false]
          exact clean.pressCharacter event.ch

end

end

end Draft

section
variable {entries : List (List UInt8)} {draft : Draft} {page next : Page} {lead : List UInt8} {target : Int}

theorem Page.run_single {call : Stroke} {Good : Page → Prop}
    (stepped : ∃ next, page.stroke call = some next ∧ Good next) :
    ∃ next, run Page.stroke page [call] = some next ∧ Good next := by
  obtain ⟨next, moved, good⟩ := stepped
  exact ⟨next, by simp [run, moved], good⟩

section
variable (shows : page.Shows lead draft)
include shows

theorem Page.Shows.recallLine (plain : ∀ ch ∈ draft.recalled entries target, Plain ch)
    (fits : lead.length + (draft.recalled entries target).length < consoleWidth) :
    ∃ next, run Page.stroke page (draft.recallLine entries target).2 = some next ∧
      next.Shows lead (draft.recallLine entries target).1 := by
  obtain ⟨ended, moves, atEnd⟩ := Page.At.toEnd shows
  obtain ⟨erased, erases, bare⟩ := atEnd.erases
  obtain ⟨next, types, result⟩ := bare.types plain fits
  refine ⟨next, ?_, result⟩
  rw [Draft.recallLine, List.cons_append, run, moves, Option.bind_some, run_append, erases]
  exact types

theorem Page.Shows.pressLeft :
    ∃ next, run Page.stroke page draft.pressLeft.2 = some next ∧ next.Shows lead draft.pressLeft.1 := by
  rw [Draft.pressLeft]
  split
  · next moves =>
    have place : lead.length + draft.cursor - 1 = lead.length + (draft.cursor - 1) := by omega
    have moved := Page.At.left shows
    rw [place] at moved
    exact Page.run_single moved
  · exact ⟨page, rfl, shows⟩

theorem Page.Shows.pressRight :
    ∃ next, run Page.stroke page draft.pressRight.2 = some next ∧ next.Shows lead draft.pressRight.1 := by
  rw [Draft.pressRight]
  split
  · next moves =>
    have before : lead.length + draft.cursor < (lead ++ draft.input).length := by
      rw [List.length_append]
      omega
    exact Page.run_single (Page.At.right shows before)
  · exact ⟨page, rfl, shows⟩

theorem Page.Shows.pressBackspace (inside : 0 < draft.input.length → 0 < draft.cursor) :
    ∃ next, run Page.stroke page draft.pressBackspace.2 = some next ∧ next.Shows lead draft.pressBackspace.1 := by
  rw [Draft.pressBackspace]
  split
  · next occupied =>
    have positive := inside occupied
    have place : lead.length + draft.cursor - 1 = lead.length + (draft.cursor - 1) := by omega
    have erased := Page.At.erase shows
    rw [place, List.eraseIdx_append_of_length_le (Nat.le_add_right _ _), Nat.add_sub_cancel_left] at erased
    exact Page.run_single erased
  · exact ⟨page, rfl, shows⟩

theorem Page.Shows.pressCharacter
    (fits : Plain ch ∧ draft.input.length < lineCapacity → lead.length + draft.input.length < consoleWidth ∧
    lead.length + draft.cursor + 1 < consoleWidth) :
    ∃ next, run Page.stroke page (draft.pressCharacter ch).2 = some next ∧
      next.Shows lead (draft.pressCharacter ch).1 := by
  rw [Draft.pressCharacter]
  split
  · next typed =>
    obtain ⟨room, before⟩ := fits typed
    have typedHere := Page.At.put shows typed.1 (by simpa using room) before
    rw [Lists.insertIdx_append_add] at typedHere
    exact Page.run_single typedHere
  · exact ⟨page, rfl, shows⟩

section
variable (clean : draft.Clean) (cleans : ∀ entry ∈ entries, ∀ ch ∈ entry, Plain ch)
include clean cleans

theorem Page.Shows.pressDown
    (fits : draft.browsed ≠ -1 → lead.length + (draft.recalled entries (draft.browsed - 1)).length < consoleWidth) :
    ∃ next, run Page.stroke page (draft.pressDown entries).2 = some next ∧
      next.Shows lead (draft.pressDown entries).1 := by
  rw [Draft.pressDown]
  split
  · next browsing => exact shows.recallLine (clean.recalled cleans _) (fits browsing)
  · exact ⟨page, rfl, shows⟩

theorem Page.Shows.pressUp (range : -1 ≤ draft.browsed)
    (fits : draft.browsed < (entries.length : Int) - 1 → lead.length +
    (draft.recalled entries (draft.browsed + 1)).length < consoleWidth) :
    ∃ next, run Page.stroke page (draft.pressUp entries).2 = some next ∧
      next.Shows lead (draft.pressUp entries).1 := by
  rw [Draft.pressUp]
  split
  · next more =>
    have entry : draft.browsed + 1 ≠ -1 := by omega
    have stashed : page.Shows lead draft.stashed := by
      rw [Draft.stashed_eq]
      exact shows
    refine stashed.recallLine (clean.stashed.recalled cleans _) ?_
    rw [Draft.recalled_stashed entry]
    exact fits more
  · exact ⟨page, rfl, shows⟩

/-- The page follows an event that fits. -/
theorem Page.Shows.handle (range : -1 ≤ draft.browsed) (inside : draft.BackspaceInside event)
    (fits : draft.Fits lead.length entries event) :
    ∃ next, run Page.stroke page (draft.handle entries event).2 = some next ∧
      ((draft.handle entries event).1.done = false → next.Shows lead (draft.handle entries event).1) := by
  have weaken : ∀ {after : Draft × List Stroke},
      (∃ next, run Page.stroke page after.2 = some next ∧ next.Shows lead after.1) →
      ∃ next, run Page.stroke page after.2 = some next ∧ (after.1.done = false → next.Shows lead after.1) := by
    rintro after ⟨next, ran, result⟩
    exact ⟨next, ran, fun _ => result⟩
  by_cases pressed : event.state = .pressed
  · have fits := fits pressed
    rw [Draft.handle, if_neg (not_not.mpr pressed)]
    cases key : event.key with
    | numpad4 | leftArrow => exact weaken shows.pressLeft
    | numpad6 | rightArrow => exact weaken shows.pressRight
    | numpad2 | downArrow =>
      rw [key] at fits
      exact weaken (shows.pressDown clean cleans fits)
    | numpad8 | upArrow =>
      rw [key] at fits
      exact weaken (shows.pressUp clean cleans range fits)
    | other code =>
      rw [key] at fits
      by_cases erases : event.ch = Ascii.backspace
      · simp only [erases, if_true]
        exact weaken (shows.pressBackspace (inside pressed (by rw [key]; rfl) erases))
      · by_cases ends : event.ch = Ascii.newline
        · simp only [if_neg erases, if_pos ends]
          obtain ⟨next, moved, _⟩ := Page.At.newline shows
          exact ⟨next, by simp [run, moved], fun running => by cases running⟩
        · simp only [erases, ends, if_false]
          exact weaken (shows.pressCharacter fits)
  · rw [Draft.handle, if_pos pressed]
    exact ⟨page, rfl, fun _ => shows⟩

end

end

/-- A recalled line that reaches the right margin leaves the cursor elsewhere. -/
theorem Page.recall_overflow (plain : ∀ ch ∈ draft.recalled entries target, Plain ch)
    (short : lead.length < consoleWidth)
    (long : ¬ lead.length + (draft.recalled entries target).length < consoleWidth)
    (ran : run Page.stroke page (draft.recallLine entries target).2 = some next) :
    next.x ≠ lead.length + (draft.recallLine entries target).1.cursor := by
  have occupied : draft.recalled entries target ≠ [] := by
    intro empty
    rw [empty] at long
    exact long short
  obtain ⟨first, last, shape⟩ := (List.eq_nil_or_concat _).resolve_left occupied
  rw [Draft.recallLine, shape, List.concat_eq_append, List.map_append, ← List.append_assoc, run_append] at ran
  obtain ⟨before, _, ran⟩ := Option.bind_eq_some_iff.mp ran
  obtain ⟨after, stepped, same⟩ := Option.bind_eq_some_iff.mp ran
  cases same
  -- once a character was put, the cursor is before the right margin
  have margin := Page.stroke_plain_x (plain last (by simp [shape])) stepped
  change next.x ≠ lead.length + (draft.recalled entries target).length
  omega

section
variable (clean : draft.Clean) (cleans : ∀ entry ∈ entries, ∀ ch ∈ entry, Plain ch)
include clean cleans

/-- The page does not follow an event that does not fit. -/
theorem Page.handle_overflow (range : -1 ≤ draft.browsed)
    (inside : draft.cursor ≤ draft.input.length) (short : lead.length < consoleWidth)
    (long : ¬ draft.Fits lead.length entries event) (proper : next.Proper)
    (ran : run Page.stroke page (draft.handle entries event).2 = some next) :
    (draft.handle entries event).1.done = draft.done ∧
      ¬ (next.row = lead ++ (draft.handle entries event).1.input ∧
        next.x = lead.length + (draft.handle entries event).1.cursor) := by
  obtain ⟨pressed, long⟩ := Classical.not_imp.mp long
  rw [Draft.handle, if_neg (not_not.mpr pressed)] at ran ⊢
  cases key : event.key with
  | numpad4 | leftArrow | numpad6 | rightArrow =>
    rw [key] at long
    exact absurd trivial long
  | numpad2 | downArrow =>
    rw [key] at long ran
    obtain ⟨browsing, long⟩ := Classical.not_imp.mp long
    simp only [Draft.pressDown, if_pos browsing] at ran ⊢
    exact ⟨rfl, fun same => Page.recall_overflow (clean.recalled cleans _) short long ran same.2⟩
  | numpad8 | upArrow =>
    rw [key] at long ran
    obtain ⟨more, long⟩ := Classical.not_imp.mp long
    have entry : draft.browsed + 1 ≠ -1 := by omega
    simp only [Draft.pressUp, if_pos more] at ran ⊢
    rw [← Draft.recalled_stashed entry] at long
    refine ⟨?_, fun same => Page.recall_overflow (clean.stashed.recalled cleans _) short long ran same.2⟩
    rw [Draft.stashed_eq]
    rfl
  | other code =>
    rw [key] at long ran
    obtain ⟨typed, long⟩ := Classical.not_imp.mp long
    obtain ⟨_, notNewline, notBackspace⟩ := typed.1.normal
    have taken : (isprint event.ch = true ∨ event.ch = Ascii.tab) ∧ draft.input.length < lineCapacity := typed
    simp only [if_neg notNewline, if_neg notBackspace, Draft.pressCharacter, if_pos taken] at ran ⊢
    obtain ⟨after, stepped, same⟩ := Option.bind_eq_some_iff.mp ran
    cases same
    -- the character reaches the right margin, or does not fit on the row
    have margin := Page.stroke_plain_x typed.1 stepped
    have fits : next.row.length ≤ consoleWidth := proper.row_fits next.y
    refine ⟨trivial, ?_⟩
    rintro ⟨row, x⟩
    have length : next.row.length = lead.length + (draft.input.length + 1) := by
      rw [row, List.length_append, List.length_insertIdx_of_le_length inside]
    omega

end

end

end FlapjackOS.Terminal
