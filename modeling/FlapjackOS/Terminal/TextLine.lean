import FlapjackOS.Common.RingBuffer

/-! The display as the VGA driver implements it, and `TextLine`. The colours never change, so a
`VGAChar` is given by its character. -/

namespace FlapjackOS.Terminal

open Function

def consoleWidth : Nat := 80
def consoleHeight : Nat := 25

instance : NeZero consoleWidth := ⟨by decide⟩
instance : NeZero consoleHeight := ⟨by decide⟩

namespace Ascii

def backspace : UInt8 := 8
def tab : UInt8 := 9
def newline : UInt8 := 10
def space : UInt8 := 32

end Ascii

def isprint (ch : UInt8) : Bool := 32 ≤ ch && ch ≤ 126

structure Point2 where
  x : Int
  y : Int
  deriving DecidableEq, Repr

/-- `buffer` is the text buffer, row by row. -/
structure VGATextDisplayDevice where
  buffer : Nat → UInt8
  cursorPos : Point2

namespace VGATextDisplayDevice

def blank : VGATextDisplayDevice := ⟨fun _ => Ascii.space, ⟨0, 0⟩⟩

def onScreen (pos : Point2) : Prop :=
  0 ≤ pos.x ∧ 0 ≤ pos.y ∧ pos.y < consoleHeight ∧ pos.x < consoleWidth

instance (pos : Point2) : Decidable (onScreen pos) :=
  inferInstanceAs (Decidable (0 ≤ pos.x ∧ 0 ≤ pos.y ∧ pos.y < consoleHeight ∧ pos.x < consoleWidth))

def index (pos : Point2) : Nat := (pos.y * consoleWidth + pos.x).toNat

@[irreducible] def drawChar (display : VGATextDisplayDevice) (pos : Point2) (ch : UInt8) : VGATextDisplayDevice :=
  let ch := if ch = 0 then Ascii.space else ch
  if onScreen pos ∧ isprint ch then { display with buffer := update display.buffer (index pos) ch }
  else display

def getChar (display : VGATextDisplayDevice) (pos : Point2) : UInt8 :=
  if onScreen pos then display.buffer (index pos) else Ascii.space

def setCursorPosition (display : VGATextDisplayDevice) (pos : Point2) : VGATextDisplayDevice :=
  { display with cursorPos := pos }

def getTabWidth (_ : VGATextDisplayDevice) : Nat := 8

def width (_ : VGATextDisplayDevice) : Nat := consoleWidth
def height (_ : VGATextDisplayDevice) : Nat := consoleHeight

/-- Draw one character in so many columns from column `j` on. -/
def fill (display : VGATextDisplayDevice) (row : Int) (ch : UInt8) (j : Nat) : Nat → VGATextDisplayDevice
  | 0 => display
  | rest + 1 => (display.drawChar ⟨j, row⟩ ch).fill row ch (j + 1) rest

end VGATextDisplayDevice

/-- The number of columns this character will take up. The source divides by the tab width. -/
def stepForChar (tabWidth col : Nat) (ch : UInt8) : Nat :=
  if ch = Ascii.tab then tabWidth - col % tabWidth
  else if isprint ch then 1
  else 0

structure TextLine where
  data : RingBuffer UInt8 consoleWidth

instance : Movable UInt8 := ⟨id⟩

namespace TextLine

def nil : TextLine := ⟨.nil⟩

def size (line : TextLine) : Nat := line.data.size

def insert (line : TextLine) (index : Int) (ch : UInt8) : Option (TextLine × Bool) :=
  if ch ≠ Ascii.newline ∧ ch ≠ Ascii.backspace then do
    let (data, inserted) ← line.data.insert index ch
    return (⟨data⟩, inserted)
  else none

def remove (line : TextLine) (index : Int) : Option TextLine :=
  if !line.data.empty then do
    let data ← line.data.remove index
    return ⟨data⟩
  else some line

/-- The state of the loop of `draw`. -/
structure Pen where
  display : VGATextDisplayDevice
  col : Nat
  row : Int

/-- Draw one character and move on. -/
def Pen.draw (tabWidth maxColumns : Nat) (pen : Pen) (ch : UInt8) : Pen :=
  let step := stepForChar tabWidth pen.col ch
  let shown := if ch = Ascii.tab then Ascii.space else ch
  let display := pen.display.fill pen.row shown pen.col (min (pen.col + step) maxColumns - pen.col)
  if maxColumns ≤ pen.col + step then { display, col := 0, row := pen.row + 1 }
  else { display, col := pen.col + step, row := pen.row }

/-- A loop over so many characters, from the `i`th on. -/
def forChars (line : TextLine) (body : σ → UInt8 → σ) (state : σ) (i : Nat) : Nat → Option σ
  | 0 => some state
  | rest + 1 => do
    let ch ← line.data.at? i
    line.forChars body (body state ch) (i + 1) rest

/-- The loop of `draw`. -/
def drawLoop (line : TextLine) (tabWidth maxColumns : Nat) : Pen → Nat → Nat → Option Pen :=
  line.forChars (Pen.draw tabWidth maxColumns)

/-- The display, and the row where the next logical line should be placed. -/
def draw (line : TextLine) (display : VGATextDisplayDevice) (row : Int) :
    Option (VGATextDisplayDevice × Int) := do
  let pen ← line.drawLoop display.getTabWidth display.width ⟨display, 0, row⟩ 0 line.size
  return (pen.display.fill pen.row 0 pen.col (display.width - pen.col), pen.row + 1)

/-- The loop of `get_physical_column_for_index`. -/
def columnLoop (line : TextLine) (tabWidth : Nat) : Nat → Nat → Nat → Option Nat :=
  line.forChars fun col ch => col + stepForChar tabWidth col ch

def getPhysicalColumnForIndex (line : TextLine) (display : VGATextDisplayDevice) (index : Int) : Option Nat :=
  line.columnLoop display.getTabWidth 0 0 index.toNat

section
variable {line : TextLine} {chars done rest : List UInt8}

/-- The display after a line with these characters has been drawn. -/
def drawn (display : VGATextDisplayDevice) (row : Int) (chars : List UInt8) : VGATextDisplayDevice :=
  let pen := chars.foldl (Pen.draw display.getTabWidth display.width) ⟨display, 0, row⟩
  pen.display.fill pen.row 0 pen.col (display.width - pen.col)

theorem forChars_eq (holds : line.data.Holds (done ++ rest)) (bound : count ≤ rest.length) (body : σ → UInt8 → σ)
    (state : σ) : line.forChars body state done.length count = some ((rest.take count).foldl body state) := by
  induction count generalizing done rest state with
  | zero => rfl
  | succ count ih =>
    cases rest with
    | nil => simp at bound
    | cons ch rest =>
      have read : line.data.at? done.length = some ch := holds.at_append
      rw [List.append_cons] at holds
      simpa [forChars, read] using ih holds (Nat.le_of_succ_le_succ bound) _

theorem draw_eq (holds : line.data.Holds chars) (display : VGATextDisplayDevice) (row : Int) :
    ∃ below, line.draw display row = some (drawn display row chars, below) := by
  have whole : line.data.Holds ([] ++ chars) := holds
  have loops : line.drawLoop display.getTabWidth display.width ⟨display, 0, row⟩ 0 chars.length = _ :=
    forChars_eq whole (Nat.le_refl _) _ _
  rw [List.take_length] at loops
  exact ⟨_, by rw [draw, size, holds.size, loops]; rfl⟩

section
variable (holds : line.data.Holds chars)
include holds

theorem insert_eq (room : chars.length < consoleWidth) (bound : index ≤ chars.length)
    (normal : ch ≠ Ascii.newline ∧ ch ≠ Ascii.backspace) :
    ∃ next, line.insert index ch = some (next, true) ∧ next.data.Holds (chars.insertIdx index ch) := by
  obtain ⟨data, inserted, result⟩ := holds.insert room bound ch
  exact ⟨⟨data⟩, by simp [insert, normal, inserted], result⟩

theorem insert_full (full : chars.length = consoleWidth) (bound : index ≤ chars.length)
    (normal : ch ≠ Ascii.newline ∧ ch ≠ Ascii.backspace) :
    line.insert index ch = some (line, false) := by
  have inside : (0 : Int) ≤ index ∧ (index : Int) ≤ line.data.size := by
    rw [holds.size]
    omega
  simp [insert, normal, RingBuffer.insert_full (holds.full_iff.mpr full) inside ch]

theorem insert_outside (outside : chars.length < index) (ch : UInt8) :
    line.insert index ch = none := by
  have beyond : ¬ ((0 : Int) ≤ index ∧ (index : Int) ≤ line.data.size) := by
    rw [holds.size]
    omega
  simp [insert, RingBuffer.insert_outside beyond ch]

theorem remove_eq (bound : chars = [] ∨ index < chars.length) :
    ∃ next, line.remove index = some next ∧ next.data.Holds (chars.eraseIdx index) := by
  cases chars with
  | nil => exact ⟨line, by simp [remove, holds.empty_iff], holds⟩
  | cons first rest =>
    obtain ⟨data, removed, result⟩ := holds.remove (bound.resolve_left (List.cons_ne_nil _ _))
    exact ⟨⟨data⟩, by simp [remove, holds.occupied, removed], result⟩

end

end

/-- Replace each tab by spaces up to the next tab stop. -/
def expandTabs (tabWidth : Nat) (chars : List UInt8) : List UInt8 :=
  chars.foldl (fun text ch =>
    text ++ if ch = Ascii.tab then List.replicate (tabWidth - text.length % tabWidth) Ascii.space else [ch]) []

section
variable {line : TextLine} {chars : List UInt8} (tabWidth maxColumns : Nat) (display : VGATextDisplayDevice) (row : Int)

theorem columns_eq (normal : ∀ ch ∈ chars, ch = Ascii.tab ∨ isprint ch = true) :
    chars.foldl (fun col ch => col + stepForChar tabWidth col ch) 0 = (expandTabs tabWidth chars).length := by
  induction chars using List.reverseRecOn with
  | nil => rfl
  | append_singleton chars ch ih =>
    have before := ih fun c member => normal c (List.mem_append_left _ member)
    have last : ch = Ascii.tab ∨ isprint ch = true := normal ch (List.mem_append_right _ List.mem_cons_self)
    rw [expandTabs, List.foldl_concat, List.foldl_concat, before, List.length_append, ← expandTabs, stepForChar]
    split
    · rw [List.length_replicate]
    · next plain => rw [if_pos (last.resolve_left plain), List.length_singleton]

/-- The pen is where the columns say until they reach the margin, and on a lower row from there on. -/
theorem pen_foldl (chars : List UInt8) :
    let pen := chars.foldl (Pen.draw tabWidth maxColumns) ⟨display, 0, row⟩
    let columns := chars.foldl (fun col ch => col + stepForChar tabWidth col ch) 0
    if chars = [] ∨ columns < maxColumns then pen.col = columns ∧ pen.row = row else row < pen.row := by
  induction chars using List.reverseRecOn with
  | nil => exact ⟨rfl, rfl⟩
  | append_singleton chars ch ih =>
    simp only [List.foldl_concat, List.append_ne_nil_of_right_ne_nil, ne_eq, List.cons_ne_nil, not_false_eq_true,
      false_or] at ih ⊢
    generalize chars.foldl (Pen.draw tabWidth maxColumns) ⟨display, 0, row⟩ = pen at *
    generalize chars.foldl (fun col ch => col + stepForChar tabWidth col ch) 0 = columns at *
    simp only [Pen.draw]
    split at ih
    · obtain ⟨rfl, rfl⟩ := ih
      by_cases margin : maxColumns ≤ pen.col + stepForChar tabWidth pen.col ch
      · rw [if_neg (Nat.not_lt_of_le margin), if_pos margin]
        exact Int.lt_succ pen.row
      · rw [if_pos (Nat.lt_of_not_le margin), if_neg margin]
        exact ⟨rfl, rfl⟩
    · next margin =>
      have past : maxColumns ≤ columns := Nat.le_of_not_lt fun inside => margin (.inr inside)
      rw [if_neg (Nat.not_lt_of_le (Nat.le_add_right_of_le past))]
      split
      · exact Int.lt_add_one_of_le ih.le
      · exact ih

variable (holds : line.data.Holds chars) (normal : ∀ ch ∈ chars, ch = Ascii.tab ∨ isprint ch = true)
include holds normal

/-- The computed column, on the row of the line, is where the character is drawn, exactly if the
characters before it leave room in the first row of the display. -/
theorem physical_column_iff (_wide : 0 < tabWidth) (bound : i ≤ chars.length) :
    ∃ column pen, line.columnLoop tabWidth 0 0 i = some column ∧
      line.drawLoop tabWidth maxColumns ⟨display, 0, row⟩ 0 i = some pen ∧
      (pen.col = column ∧ pen.row = row ↔
        i = 0 ∨ (expandTabs tabWidth (chars.take i)).length < maxColumns) := by
  have whole : line.data.Holds ([] ++ chars) := holds
  refine ⟨_, _, forChars_eq whole bound _ 0, forChars_eq whole bound _ _, ?_⟩
  have drawn := pen_foldl tabWidth maxColumns display row (chars.take i)
  have empty : chars.take i = [] ↔ i = 0 := by
    rw [← List.length_eq_zero_iff, List.length_take_of_le bound]
  rw [← columns_eq tabWidth fun ch member => normal ch (List.mem_of_mem_take member), ← empty]
  simp only at drawn
  split at drawn
  · next fits => exact iff_of_true drawn fits
  · next full => exact iff_of_false (fun same => drawn.ne' same.2) full

omit holds normal in
theorem physical_column_iff_sample :
    ∃ line column pen, columnLoop line 8 0 0 1 = some column ∧
      drawLoop line 8 80 ⟨.blank, 0, 3⟩ 0 1 = some pen ∧ pen.col = column ∧ pen.row = 3 := by
  let line : TextLine := ⟨[Ascii.tab, 97].foldl (fun ring ch => (ring.pushBack ch).1) .nil⟩
  have holds : line.data.Holds [Ascii.tab, 97] := RingBuffer.holds_nil.pushAll (by decide)
  obtain ⟨column, pen, columns, drawn, same⟩ := physical_column_iff 8 80 .blank 3 holds
    (List.forall_mem_cons.mpr ⟨.inl rfl, List.forall_mem_singleton.mpr (.inr rfl)⟩) (by decide) (by decide : 1 ≤ 2)
  exact ⟨line, column, pen, columns, drawn, same.mpr (.inr (by decide))⟩

omit holds normal in
/-- Ten tabs fill the row: the column is 80, and the next character is drawn on the next row. -/
theorem ten_tabs_wrap :
    let line : TextLine := ⟨(List.replicate 10 Ascii.tab).foldl (fun ring ch => (ring.pushBack ch).1) .nil⟩
    line.columnLoop 8 0 0 10 = some 80 ∧
      (line.drawLoop 8 80 ⟨.blank, 0, 0⟩ 0 10).map (fun pen => (pen.col, pen.row)) =
        some (0, 1) := by
  decide +kernel

end

end TextLine

end FlapjackOS.Terminal
