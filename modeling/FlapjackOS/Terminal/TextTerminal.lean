import FlapjackOS.Terminal.TextLine

/-! `UnlockedTextTerminal`. `TextTerminal` calls it under a lock. -/

namespace FlapjackOS.Terminal

structure UnlockedTextTerminal where
  display : VGATextDisplayDevice
  cursor : Point2
  lines : RingBuffer TextLine consoleHeight

/-- A call that puts one character or moves the cursor. -/
inductive Stroke where
  | putchar (ch : UInt8)
  | moveCursorLeft
  | moveCursorRight
  | moveCursorToEnd
  deriving DecidableEq, Repr

/-- A call, other than of `printf`, which ends in `puts`. -/
inductive Operation where
  | stroke (stroke : Stroke)
  | puts (str : List UInt8)
  | putv (buf : List UInt8)
  deriving DecidableEq, Repr

namespace UnlockedTextTerminal

/-- The loop of the constructor. -/
def emptyLines : Nat → RingBuffer TextLine consoleHeight
  | 0 => .nil
  | count + 1 => ((emptyLines count).pushBack TextLine.nil).1

/-- The constructor. -/
def create (display : VGATextDisplayDevice) : UnlockedTextTerminal :=
  { display, cursor := ⟨0, 0⟩, lines := emptyLines display.height }

section
variable (terminal : UnlockedTextTerminal)

def width : Nat := terminal.display.width

def height : Nat := terminal.display.height

/-- Assign to `cursor_`. -/
def setCursor (x y : Int) : UnlockedTextTerminal :=
  { terminal with cursor := ⟨x, y⟩ }

/-- Assign to `lines_`. -/
def setLines (lines : RingBuffer TextLine consoleHeight) :
    UnlockedTextTerminal :=
  { terminal with lines }

def getLineWidth : Option Nat := do
  let line ← terminal.lines.at? terminal.cursor.y
  return line.size

def redrawLine (y : Int) : Option UnlockedTextTerminal :=
  if 0 ≤ y then do
    let line ← terminal.lines.at? y
    let (display, _) ← line.draw terminal.display y
    return { terminal with display }
  else none

def redrawCurrentLine : Option UnlockedTextTerminal :=
  terminal.redrawLine terminal.cursor.y

def setDisplayCursorPosition : Option UnlockedTextTerminal := do
  let line ← terminal.lines.at? terminal.cursor.y
  let column ← line.getPhysicalColumnForIndex terminal.display terminal.cursor.x
  return { terminal with display := terminal.display.setCursorPosition ⟨column, terminal.cursor.y⟩ }

def moveCursorForNewline : UnlockedTextTerminal :=
  terminal.setCursor 0 (terminal.cursor.y + 1)

def advanceCursorForward : Option UnlockedTextTerminal :=
  let advanced := terminal.setCursor (terminal.cursor.x + 1) terminal.cursor.y
  let moved := if terminal.width ≤ advanced.cursor.x then advanced.moveCursorForNewline else advanced
  moved.setDisplayCursorPosition

def advanceCursorBackward : UnlockedTextTerminal :=
  if terminal.cursor.x > 0 then terminal.setCursor (terminal.cursor.x - 1) terminal.cursor.y
  else terminal

def backspace : Option UnlockedTextTerminal := do
  let terminal := terminal.advanceCursorBackward
  let lines ← terminal.lines.modifyAt terminal.cursor.y (fun line => line.remove terminal.cursor.x)
  (terminal.setLines lines).redrawCurrentLine

def insertChar (ch : UInt8) : Option UnlockedTextTerminal := do
  let lines ← terminal.lines.modifyAt terminal.cursor.y
    (fun line => (line.insert terminal.cursor.x ch).map Prod.fst)
  (terminal.setLines lines).redrawCurrentLine

/-- The loop of `scroll_one_line`, from row `i` on. -/
def redrawLines (terminal : UnlockedTextTerminal) (i : Nat) : Nat → Option UnlockedTextTerminal
  | 0 => some terminal
  | rest + 1 => do
    let terminal ← terminal.redrawLine i
    terminal.redrawLines (i + 1) rest

def scrollOneLine : Option UnlockedTextTerminal := do
  let lines ← terminal.lines.popFront
  (terminal.setLines (lines.pushBack TextLine.nil).1).redrawLines 0 terminal.height

def putNormalCharacter (ch : UInt8) : Option UnlockedTextTerminal := do
  let terminal ←
    if terminal.height ≤ terminal.cursor.y then
      (terminal.setCursor terminal.cursor.x (terminal.height - 1)).scrollOneLine
    else some terminal
  let terminal ← terminal.insertChar ch
  terminal.advanceCursorForward

def putchar (ch : UInt8) : Option UnlockedTextTerminal := do
  let terminal ←
    if ch = 0 then some terminal
    else if ch = Ascii.newline then some terminal.moveCursorForNewline
    else if ch = Ascii.backspace then terminal.backspace
    else terminal.putNormalCharacter ch
  terminal.setDisplayCursorPosition

/-- The string ends at its first nul character, or at the end of the list. -/
def puts (terminal : UnlockedTextTerminal) : List UInt8 → Option UnlockedTextTerminal
  | [] => some terminal
  | ch :: rest =>
    if ch = 0 then some terminal
    else do
      let terminal ← terminal.putchar ch
      terminal.puts rest

def putv (terminal : UnlockedTextTerminal) : List UInt8 → Option UnlockedTextTerminal
  | [] => some terminal
  | ch :: rest => do
    let terminal ← terminal.putchar ch
    terminal.putv rest

def moveCursorLeft : Option UnlockedTextTerminal :=
  terminal.advanceCursorBackward.setDisplayCursorPosition

def moveCursorRight : Option UnlockedTextTerminal := do
  let advanced := terminal.setCursor (terminal.cursor.x + 1) terminal.cursor.y
  let lineWidth ← advanced.getLineWidth
  let moved :=
    if advanced.cursor.x > lineWidth then advanced.setCursor lineWidth advanced.cursor.y
    else advanced
  moved.setDisplayCursorPosition

def moveCursorToEnd : Option UnlockedTextTerminal := do
  let lineWidth ← terminal.getLineWidth
  (terminal.setCursor lineWidth terminal.cursor.y).setDisplayCursorPosition

def stroke : Stroke → Option UnlockedTextTerminal
  | .putchar ch => terminal.putchar ch
  | .moveCursorLeft => terminal.moveCursorLeft
  | .moveCursorRight => terminal.moveCursorRight
  | .moveCursorToEnd => terminal.moveCursorToEnd

def perform : Operation → Option UnlockedTextTerminal
  | .stroke stroke => terminal.stroke stroke
  | .puts str => terminal.puts str
  | .putv buf => terminal.putv buf

end

end UnlockedTextTerminal

end FlapjackOS.Terminal
