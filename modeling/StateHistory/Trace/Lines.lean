import StateHistory.Text.Blank
import StateHistory.Trace.Source

/-!
# Events by line

A source with one event on each line. Lines end with a newline or with the input. Blank lines and
lines that start with a number sign are passed over. A line that is no text fails, and is not
counted; a line of text that is no event fails with its number.
-/

namespace StateHistory

/-- Where reading lines has come to: the bytes ahead and how many lines of text are behind. -/
structure LineCursor where
  label : String
  ahead : List UInt8
  counted : Nat

namespace LineCursor

def newline : UInt8 := 10

/-- The first line of some bytes, with its newline, and the bytes after it. -/
def splitLine (bytes : List UInt8) : List UInt8 × List UInt8 :=
  match bytes.dropWhile (· != newline) with
  | _ :: rest => (bytes.takeWhile (· != newline) ++ [newline], rest)
  | [] => (bytes, [])

/-- What one line of text contributes: nothing, an event or a failure. -/
def readLine (label : String) (number : Nat) (line : String) : Option Read :=
  match Text.trim line.toList with
  | [] => none
  | '#' :: _ => none
  | cs =>
    match Event.parse? cs with
    | some e => some (.event e)
    | none => some (.failure (.invalidEvent label number))

/-- One line: what it contributes and the cursor behind it. -/
def step (c : LineCursor) : Option Read × LineCursor :=
  let (line, ahead) := splitLine c.ahead
  match String.fromUTF8? ⟨line.toArray⟩ with
  | some text =>
    (readLine c.label (c.counted + 1) text, { c with ahead, counted := c.counted + 1 })
  | none => (some (.failure (.unreadable c.label)), { c with ahead })

/-- The reads of the lines ahead, of which there are at most `fuel`. -/
def reads : Nat → LineCursor → List Read
  | 0, _ => []
  | fuel + 1, c =>
    if c.ahead.isEmpty then []
    else
      let (read, c) := c.step
      read.toList ++ reads fuel c

end LineCursor

/-- The source of the events in some bytes. -/
def Source.ofLines (label : String) (bytes : List UInt8) : Source :=
  ⟨LineCursor.reads bytes.length ⟨label, bytes, 0⟩⟩

end StateHistory
