import FlapjackOS.Terminal.Wrapping

namespace FlapjackOS.Terminal.UnlockedTextTerminal

open Function Runs Simulation

variable {terminal next : UnlockedTextTerminal} {page : Page} {display : VGATextDisplayDevice}
  {operations : List Operation} {ch : UInt8}

/-- The row with this index. The rows behind the last one are empty. -/
def rowOf (text : List (List UInt8)) (index : Nat) : List UInt8 := text.getD index []

/-- The stored text after a character has been put, with the line that was scrolled off. -/
def textAfter (terminal next : UnlockedTextTerminal) : List (List UInt8) :=
  (if terminal.height ≤ terminal.cursor.y then terminal.text.take 1 else []) ++ next.text

/-- The character has been inserted, and nothing else has changed. -/
def Inserted (ch : UInt8) (row column : Nat) (before after : Nat → List UInt8) : Prop :=
  column ≤ (before row).length ∧ after = update before row ((before row).insertIdx column ch)

theorem Page.advance_rows (page : Page) : page.advance.rows = page.rows := by
  rw [Page.advance]
  split <;> rfl

theorem Represents.rowOf_eq (represents : terminal.Represents page) (above : page.y < consoleHeight) :
    rowOf terminal.text terminal.cursor.y.toNat = page.row := by
  rw [represents.mirrors.text_eq, represents.mirrors.cursor_y, Page.row, Page.rowAt, Nat.mod_eq_of_lt above]
  rfl

theorem rowOf_set {text : List (List UInt8)} (inside : index < text.length) (row : List UInt8) :
    rowOf (text.set index row) = update (rowOf text) index row := by
  funext i
  by_cases here : i = index
  · simp [rowOf, here, inside]
  · simp [rowOf, here, Ne.symm here]

theorem rowOf_concat (text : List (List UInt8)) (row : List UInt8) :
    rowOf (text ++ [row]) = update (rowOf text) text.length row := by
  funext i
  rcases Nat.lt_trichotomy i text.length with before | rfl | behind
  · rw [update_of_ne before.ne, rowOf, List.getD_append _ _ _ _ before]
    rfl
  · simp [rowOf]
  · have past : (text ++ [row]).length ≤ i := by
      rw [List.length_append]
      exact behind
    rw [update_of_ne behind.ne', rowOf, rowOf, List.getD_eq_default _ _ past,
      List.getD_eq_default _ _ (Nat.le_of_lt behind)]

theorem set_rowOf {text : List (List UInt8)} (inside : index < text.length) :
    text.set index (rowOf text index) = text := by
  rw [rowOf, List.getD_eq_getElem _ _ inside, List.set_getElem_self]

/-- A backspace removes the character left of the cursor and moves the cursor there, and changes
nothing in column 0, exactly if the cursor is not in column 0 of a row with characters. -/
theorem backspace_iff (reached : run perform (create display) operations = some terminal)
    (shown : terminal.cursor.y < terminal.height) :
    let x := terminal.cursor.x.toNat
    let row := rowOf terminal.text terminal.cursor.y.toNat
    ∃ next, terminal.putchar Ascii.backspace = some next ∧
      ((if 0 < x then x ≤ row.length ∧ next.cursor = ⟨x - 1, terminal.cursor.y⟩ ∧
            rowOf next.text = update (rowOf terminal.text) terminal.cursor.y.toNat (row.eraseIdx (x - 1))
          else next.text = terminal.text ∧ next.cursor = terminal.cursor) ↔ 0 < x ∨ row = []) := by
  obtain ⟨page, represents⟩ := standing_of_run reached
  have cursor := represents.mirrors.cursor
  have above : page.y < consoleHeight := by
    rw [represents.mirrors.cursor_y] at shown
    exact Int.ofNat_lt.mp shown
  have inside : page.y < terminal.text.length := by
    rwa [represents.mirrors.text_eq, represents.proper.count]
  have here := represents.rowOf_eq above
  obtain ⟨next, puts, result⟩ := rel_some_right (represents.putchar Ascii.backspace)
  have erased : next.text = terminal.text.set page.y (page.row.eraseIdx (page.x - 1)) := by
    rw [result.mirrors.text_eq, represents.mirrors.text_eq]
    exact congrArg (page.rows.set · _) (Nat.mod_eq_of_lt above)
  simp only [cursor, Int.toNat_natCast] at here ⊢
  rw [here]
  refine ⟨next, puts, ?_⟩
  split
  · next moves =>
    refine iff_of_true ⟨represents.proper.inside, ?_, ?_⟩ (.inl moves)
    · rw [result.mirrors.cursor]
      exact congrArg (Point2.mk · page.y) (Int.ofNat_sub moves)
    · rw [erased, rowOf_set inside]
  · next start =>
    have first : page.x = 0 := Nat.eq_zero_of_not_pos start
    rw [first, Nat.zero_sub, List.eraseIdx_zero] at erased
    rw [or_iff_right start]
    constructor
    · rintro ⟨same, -⟩
      have unchanged : rowOf next.text page.y = page.row := by rw [same, here]
      rw [erased, rowOf_set inside, update_self] at unchanged
      have length := congrArg List.length unchanged
      rw [List.length_tail] at length
      exact List.eq_nil_of_length_eq_zero (by omega)
    · intro empty
      refine ⟨?_, ?_⟩
      · rw [erased, empty, List.tail_nil, ← empty, ← here, set_rowOf inside]
      · rw [result.mirrors.cursor]
        exact congrArg (fun x : Nat => Point2.mk x page.y) (show page.x - 1 = page.x by omega)

theorem backspace_iff_sample :
    ∃ terminal next, run perform (create .blank) [.puts [72, 105]] = some terminal ∧
      terminal.putchar Ascii.backspace = some next ∧ next.cursor = ⟨1, 0⟩ := by
  have typed : (run perform (create .blank) [.puts [72, 105]]).map cursor = some ⟨2, 0⟩ := by
    decide +kernel
  obtain ⟨terminal, reached, cursor⟩ := Option.map_eq_some_iff.mp typed
  obtain ⟨next, puts, property⟩ := backspace_iff reached (cursor ▸ Int.ofNat_lt.mpr (Nat.zero_lt_succ 24))
  rw [cursor] at property
  exact ⟨terminal, next, reached, puts, (property.mpr (.inl (by decide))).2.1⟩

/-- After `a` and a move to the left, a backspace in column 0 removes the `a`. -/
theorem backspace_removes_right :
    (run perform (create .blank)
      [.stroke (.putchar 97), .stroke .moveCursorLeft, .stroke (.putchar Ascii.backspace)]).map
        (fun terminal => (terminal.cursor, terminal.text.head?)) = some (⟨0, 0⟩, some []) := by
  decide +kernel

/-- A printable character is added to the text, in the row of the cursor or the next one, exactly if
the row has room for it. -/
theorem putchar_gains_iff (reached : run perform (create display) operations = some terminal)
    (printable : isprint ch = true) (put : terminal.putchar ch = some next) :
    let before := rowOf terminal.text
    let after := rowOf (terminal.textAfter next)
    let y := terminal.cursor.y.toNat
    (if (before y).length < terminal.width then Inserted ch y terminal.cursor.x.toNat before after
      else ∃ column, Inserted ch (y + 1) column before after) ↔ (before y).length < terminal.width := by
  obtain ⟨page, represents⟩ := standing_of_run reached
  have cursor := represents.mirrors.cursor
  have stored : terminal.text = page.rows := represents.mirrors.text_eq
  have count : terminal.text.length = consoleHeight := stored ▸ represents.proper.count
  have height : terminal.height = consoleHeight := rfl
  have width : terminal.width = consoleWidth := rfl
  obtain ⟨after, stroked, result⟩ := rel_some_left (put ▸ represents.putchar ch)
  have plain : page.stroke (.putchar ch) = _ := Page.stroke_plain (.inl printable)
  obtain ⟨placed, puts, rfl⟩ := Option.map_eq_some_iff.mp (plain.symm.trans stroked)
  have text : next.text = placed.rows := result.mirrors.text_eq
  simp only [cursor, Int.toNat_natCast, textAfter, height, width, Int.ofNat_le, text]
  by_cases above : page.y < consoleHeight
  · have here := represents.rowOf_eq above
    simp only [cursor, Int.toNat_natCast] at here
    have inside : page.y < terminal.text.length := count ▸ above
    rw [represents.proper.put above] at puts
    cases puts
    have rows : (page.insert ch).advance.rows = terminal.text.set page.y
        (if page.row.length < consoleWidth then page.row.insertIdx page.x ch else page.row) := by
      rw [Page.advance_rows, stored]
      exact congrArg (page.rows.set · _) (Nat.mod_eq_of_lt above)
    rw [if_neg (Nat.not_le_of_lt above), List.nil_append, rows, here]
    split
    · next room =>
      exact iff_of_true ⟨here ▸ represents.proper.inside, here ▸ rowOf_set inside _⟩ room
    · next full =>
      refine iff_of_false ?_ full
      rintro ⟨column, bound, same⟩
      have longer := congrArg List.length (congrFun same (page.y + 1))
      rw [← here, set_rowOf inside, update_self, List.length_insertIdx_of_le_length bound] at longer
      omega
  · have below : consoleHeight ≤ page.y := Nat.le_of_not_lt above
    have last : page.y = terminal.text.length := count ▸ Nat.le_antisymm represents.proper.lowest below
    rw [represents.proper.put_below below] at puts
    obtain ⟨start, puts⟩ := Option.ite_none_right_eq_some.mp puts
    cases puts
    obtain ⟨first, rest, shape⟩ := List.exists_cons_of_length_eq_add_one (stored ▸ count : page.rows.length = 24 + 1)
    have length : rest.length = (consoleHeight - 1) % consoleHeight := by
      rw [stored, shape, List.length_cons] at count
      exact Nat.succ.inj count
    have rows : (page.scroll.insert ch).advance.rows = rest ++ [[ch]] := by
      rw [Page.advance_rows]
      change page.scroll.rows.set (page.scroll.y % consoleHeight) (if page.scroll.row.length < consoleWidth then
        page.scroll.row.insertIdx page.scroll.x ch else page.scroll.row) = _
      rw [Page.scroll_rows, Page.scroll_y, Page.scroll_row represents.proper.count, Page.scroll_x, start, shape,
        ← length]
      simp [consoleWidth]
    have empty : rowOf terminal.text page.y = [] := by
      rw [rowOf, last, List.getD_eq_default _ _ (Nat.le_refl _)]
    have whole : terminal.text.take 1 ++ (rest ++ [[ch]]) = terminal.text ++ [[ch]] := by
      rw [stored, shape]
      rfl
    rw [if_pos below, rows, whole, empty]
    refine iff_of_true ?_ (by decide)
    rw [if_pos (by decide), Inserted, empty, start, last, rowOf_concat]
    exact ⟨Nat.le_refl 0, rfl⟩

theorem putchar_gains_iff_sample :
    ∃ terminal next, run perform (create .blank) [.puts [72]] = some terminal ∧
      terminal.putchar 105 = some next ∧ Inserted 105 0 1 (rowOf terminal.text) (rowOf (terminal.textAfter next)) := by
  have typed : ((run perform (create .blank) [.puts [72]]).bind fun terminal =>
      (terminal.putchar 105).map fun _ => (terminal.cursor, (rowOf terminal.text 0).length)) = some (⟨1, 0⟩, 1) := by
    decide +kernel
  obtain ⟨terminal, reached, typed⟩ := Option.bind_eq_some_iff.mp typed
  obtain ⟨next, puts, state⟩ := Option.map_eq_some_iff.mp typed
  obtain ⟨cursor, length⟩ := Prod.mk.inj state
  have gains := putchar_gains_iff reached (by decide) puts
  have room : (1 : Nat) < terminal.width := (by decide : 1 < consoleWidth)
  simp only [cursor, Int.toNat_zero, length, room, if_true, iff_true] at gains
  exact ⟨terminal, next, reached, puts, gains⟩

/-- In a full row, the cursor moves on without the character. -/
theorem full_row_loses_character :
    (run perform (create .blank)
      [.puts (List.replicate 79 97), .stroke .moveCursorLeft, .puts [98, 99]]).map
        (fun terminal => (terminal.cursor, terminal.text.map (·.count 99))) = some (⟨0, 1⟩, List.replicate 25 0) := by
  decide +kernel

end FlapjackOS.Terminal.UnlockedTextTerminal
