import StateHistory.Json.Printer
import StateHistory.Json.Reader
import StateHistory.Time
import StateHistory.Value

/-!
# Trace events

One record of a trace: when it happened, what it is called, and further fields. An event is written
in JSON as an object with these three members, or as an array of the three in order; the fields can
be left out, and an object may have other members, which say nothing.
-/

namespace StateHistory

/-- One record of a trace; its fields are sorted by name. -/
structure Event where
  timestamp : Time
  name : String
  fields : List (String × Json) := []
deriving Repr, Inhabited

namespace Event

def field? (e : Event) (name : String) : Option Json := Json.lookup name e.fields

/-- A field that is a whole number of 64 bits with sign. -/
def fieldLong (e : Event) (name : String) : Option Int :=
  match e.field? name with
  | some (.int n) => if Value.fitsLong n then some n else none
  | _ => none

def fieldString (e : Event) (name : String) : Option String :=
  match e.field? name with
  | some (.string s) => some s
  | _ => none

/-- A field that can stand in a path: a string, or a number in its JSON form. -/
def fieldSegment (e : Event) (name : String) : Option String :=
  match e.field? name with
  | some (.string s) => some s
  | some (.int n) => some (toString n)
  | some (.double bits) => some (Decimal.json.text bits)
  | _ => none

/-- The state value of a JSON value. Whole numbers past the range of a long become doubles, truth
values become 0 and 1, and containers become their JSON text. -/
def valueOfJson : Json → Value
  | .null => .null
  | .int n => if Value.fitsLong n then .long (.ofInt n) else .double n.toNat.toUInt64.toFloat.toBits
  | .double bits => .double bits
  | .string s => .string s
  | .bool b => .int (if b then 1 else 0)
  | v => .string (Json.compact v)

/-- A field as a state value; a missing field is null. -/
def fieldValue (e : Event) (name : String) : Value := ((e.field? name).map valueOfJson).getD .null

/-- The parts of an event that a reader has come across. -/
structure Parts where
  timestamp : Option Time := none
  name : Option String := none
  fields : Option (List (String × Json)) := none

/-- The event of the parts, if none but the fields is missing. -/
def Parts.toEvent (p : Parts) : Option Event := do
  return { timestamp := ← p.timestamp, name := ← p.name, fields := p.fields.getD [] }

open Json

/-- A whole number of 64 bits with sign. -/
def readTime (cs : List Char) : Option (Time × List Char) :=
  match readAt depthLimit cs with
  | some (.int n, cs) => if Value.fitsLong n then some (n, cs) else none
  | _ => none

def readName (cs : List Char) : Option (String × List Char) :=
  match skipBlanks cs with
  | '"' :: cs => readString cs
  | _ => none

/-- An object, one level below the event. -/
def readFields (cs : List Char) : Option (List (String × Json) × List Char) :=
  match readAt (depthLimit - 1) cs with
  | some (.object members, cs) => some (members, cs)
  | _ => none

/-- Reads the member `member`, which must not have come before. -/
def readPart (p : Parts) (member : String) (cs : List Char) : Option (Parts × List Char) :=
  match member with
  | "timestamp" =>
    if p.timestamp.isSome then none
    else (readTime cs).map fun (t, cs) => ({ p with timestamp := t }, cs)
  | "name" =>
    if p.name.isSome then none
    else (readName cs).map fun (n, cs) => ({ p with name := n }, cs)
  | "fields" =>
    if p.fields.isSome then none
    else (readFields cs).map fun (f, cs) => ({ p with fields := f }, cs)
  | _ => (skipValue (2 * cs.length + 2) cs).map (p, ·)

/-- The members of an event's object up to the closing brace. The fuel counts characters. -/
def readParts : Nat → Parts → List Char → Option (Parts × List Char)
  | 0, _, _ => none
  | fuel + 1, p, cs =>
    match skipBlanks cs with
    | '"' :: cs =>
      match readString cs with
      | some (member, cs) =>
        match skipBlanks cs with
        | ':' :: cs =>
          match readPart p member cs with
          | some (p, cs) =>
            match skipBlanks cs with
            | ',' :: cs => readParts fuel p cs
            | '}' :: cs => some (p, cs)
            | _ => none
          | none => none
        | _ => none
      | none => none
    | _ => none

/-- The items of an event's array: time, name and perhaps fields. -/
def readItems (cs : List Char) : Option (Parts × List Char) := do
  let (t, cs) ← readTime cs
  match skipBlanks cs with
  | ',' :: cs =>
    let (n, cs) ← readName cs
    match skipBlanks cs with
    | ']' :: cs => return ({ timestamp := t, name := n }, cs)
    | ',' :: cs =>
      let (f, cs) ← readFields cs
      match skipBlanks cs with
      | ']' :: cs => return ({ timestamp := t, name := n, fields := f }, cs)
      | _ => none
    | _ => none
  | _ => none

/-- The parts of the event at the front of a text. -/
def readEvent (cs : List Char) : Option (Parts × List Char) :=
  match skipBlanks cs with
  | '{' :: cs =>
    match skipBlanks cs with
    | '}' :: cs => some ({}, cs)
    | cs => readParts (cs.length + 1) {} cs
  | '[' :: cs => readItems cs
  | _ => none

/-- The event that a whole text holds. -/
def parse? (cs : List Char) : Option Event := do
  let (p, rest) ← readEvent cs
  guard (skipBlanks rest).isEmpty
  p.toEvent

/-- The JSON object of an event. -/
def toJson (e : Event) : Json :=
  .object [("timestamp", .int e.timestamp), ("name", .string e.name), ("fields", .object e.fields)]

end Event

end StateHistory
