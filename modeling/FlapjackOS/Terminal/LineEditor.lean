import FlapjackOS.Common.LinkedList
import FlapjackOS.Common.RingBuffers
import FlapjackOS.Machine.Runs
import FlapjackOS.Terminal.TextTerminal

namespace FlapjackOS.Terminal

/-- The key codes that the editor distinguishes. -/
inductive Keycode where
  | numpad2
  | numpad4
  | numpad6
  | numpad8
  | leftArrow
  | rightArrow
  | upArrow
  | downArrow
  | other (code : Nat)
  deriving DecidableEq, Repr

/-- The key takes the default branch of the switch. -/
def Keycode.isDefault : Keycode → Bool
  | .other _ => true
  | _ => false

inductive KeycodeKeyState where
  | pressed
  | released
  deriving DecidableEq, Repr

structure KeyboardEvent where
  key : Keycode
  state : KeycodeKeyState
  ch : UInt8
  deriving DecidableEq, Repr

def maxPrompt : Nat := 3

/-- `LineEditor::Line::CAPACITY` -/
def lineCapacity : Nat := consoleWidth - maxPrompt

instance : NeZero lineCapacity := ⟨by decide⟩

instance : NeZero maxPrompt := ⟨by decide⟩

abbrev Line : Type := RingBuffer UInt8 lineCapacity

/-- The history, and the local variables of `getline`. -/
structure LineEditor where
  history : LinkedList Line
  haveANewline : Bool
  userInput : Line
  stashedUserInput : Line
  linearCursor : Int
  historyCursor : Int

namespace LineEditor

/-- The prompt is the string up to its end or `size`, cut off at `MAXPROMPT` characters. -/
def setPrompt (prompt : RingBuffer UInt8 maxPrompt) (size : Nat) (str : List UInt8) :
    Option (RingBuffer UInt8 maxPrompt) := do
  let prompt ← prompt.clear
  let chars := ((str.take size).takeWhile (· ≠ 0)).take maxPrompt
  return chars.foldl (fun prompt ch => (prompt.pushBack ch).1) prompt

/-- The entry is moved into the parameter of `push_front`, from which the node's value is copied. -/
def addHistory (history : LinkedList Line) (entry : Line) : Option (LinkedList Line) := do
  let (value, _) ← entry.moveConstruct
  let value ← value.copyConstruct
  return history.pushFront value

def start (history : LinkedList Line) : LineEditor :=
  { history, haveANewline := false, userInput := .nil, stashedUserInput := .nil, linearCursor := 0,
    historyCursor := -1 }

/-- The calls `terminal_.putchar(user_input[i])`, from the `i`th character on. -/
def typeLine (line : Line) (i : Nat) : Nat → Option (List Stroke)
  | 0 => some []
  | rest + 1 => do
    let ch ← line.at? i
    let strokes ← typeLine line (i + 1) rest
    return .putchar ch :: strokes

/-- The calls that remove the input from the terminal. -/
def eraseLine (line : Line) : List Stroke :=
  .moveCursorToEnd :: List.replicate line.size (.putchar Ascii.backspace)

section
variable (editor : LineEditor)

/-- The entry at the history cursor, or the stashed line. -/
def recalled : Option Line :=
  if editor.historyCursor = -1 then some editor.stashedUserInput else editor.history.at? editor.historyCursor

/-- The input is replaced by the line that is recalled. -/
def recallLine : Option (LineEditor × List Stroke) := do
  let recalled ← editor.recalled
  let userInput ← editor.userInput.assign recalled
  let strokes ← typeLine userInput 0 userInput.size
  return ({ editor with userInput, linearCursor := userInput.size }, strokes)

def pressLeft : LineEditor × List Stroke :=
  if editor.linearCursor > 0 then
    ({ editor with linearCursor := editor.linearCursor - 1 }, [.moveCursorLeft])
  else (editor, [])

def pressRight : LineEditor × List Stroke :=
  if editor.linearCursor < editor.userInput.size then
    ({ editor with linearCursor := editor.linearCursor + 1 }, [.moveCursorRight])
  else (editor, [])

def pressDown : Option (LineEditor × List Stroke) :=
  if editor.historyCursor ≠ -1 then do
    let (recalled, strokes) ← recallLine { editor with historyCursor := max (editor.historyCursor - 1) (-1) }
    return (recalled, eraseLine editor.userInput ++ strokes)
  else some (editor, [])

/-- The input is stashed when the browsing starts. -/
def stash : Option Line :=
  if editor.historyCursor = -1 then editor.stashedUserInput.assign editor.userInput
  else some editor.stashedUserInput

def pressUp : Option (LineEditor × List Stroke) :=
  if editor.historyCursor < (editor.history.count : Int) - 1 then do
    let stashedUserInput ← editor.stash
    let (recalled, strokes) ← recallLine { editor with
      stashedUserInput, historyCursor := min (editor.historyCursor + 1) (editor.history.count - 1) }
    return (recalled, eraseLine editor.userInput ++ strokes)
  else some (editor, [])

def pressBackspace : Option (LineEditor × List Stroke) :=
  if editor.userInput.size > 0 then
    let moved := { editor with linearCursor := editor.linearCursor - 1 }
    if moved.linearCursor ≥ 0 then do
      let userInput ← moved.userInput.remove moved.linearCursor
      return ({ moved with userInput }, [.putchar Ascii.backspace])
    else some (moved, [])
  else some (editor, [])

def pressCharacter (ch : UInt8) : Option (LineEditor × List Stroke) :=
  if (isprint ch ∨ ch = Ascii.tab) ∧ editor.userInput.size < lineCapacity then do
    let (userInput, _) ← editor.userInput.insert editor.linearCursor ch
    return ({ editor with userInput, linearCursor := editor.linearCursor + 1 }, [.putchar ch])
  else some (editor, [])

/-- One round of the loop of `getline`: the variables, and the calls made to the terminal. -/
def handle (event : KeyboardEvent) : Option (LineEditor × List Stroke) :=
  if event.state ≠ .pressed then some (editor, [])
  else match event.key with
    | .numpad4 | .leftArrow => some editor.pressLeft
    | .numpad6 | .rightArrow => some editor.pressRight
    | .numpad2 | .downArrow => editor.pressDown
    | .numpad8 | .upArrow => editor.pressUp
    | .other _ =>
      if event.ch = Ascii.backspace then editor.pressBackspace
      else if event.ch = Ascii.newline then
        some ({ editor with haveANewline := true }, [.putchar Ascii.newline])
      else editor.pressCharacter event.ch

/-- The variables after an event. Once there is a newline, no further event is taken. -/
def listen (event : KeyboardEvent) : Option LineEditor :=
  if editor.haveANewline then some editor else (editor.handle event).map Prod.fst

end

end LineEditor

end FlapjackOS.Terminal
