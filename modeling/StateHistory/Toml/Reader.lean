import StateHistory.Toml.Scalar
import StateHistory.Toml.Value

/-!
# Reading TOML

A document is read line by line: blank lines and comments, headers, which say what table is filled
next, and keys with their values. The fuel of the recursive readers counts characters, so a text
never runs out of it.
-/

namespace StateHistory.Toml

/-- A number or a date. -/
def readNumeric (cs : List Char) : Option (Toml × List Char) :=
  if startsDate cs then do return (.date, ← readClockAfterDate (← readDate cs))
  else if startsClock cs then (readClock cs).map (.date, ·)
  else (readNumber cs).map fun
    | (.integer n, cs) => (.integer n, cs)
    | (.float, cs) => (.float, cs)

mutual

/-- A value, nesting fewer than `depth` containers. -/
def readValue : Nat → Nat → List Char → Option (Toml × List Char)
  | 0, _, _ => none
  | fuel + 1, depth, cs =>
    match cs with
    | '"' :: _ | '\'' :: _ => (readString cs).map fun (s, cs) => (.string s, cs)
    | 't' :: 'r' :: 'u' :: 'e' :: cs => some (.boolean true, cs)
    | 'f' :: 'a' :: 'l' :: 's' :: 'e' :: cs => some (.boolean false, cs)
    | '[' :: cs =>
      if depth ≤ 1 then none
      else (readItems fuel (depth - 1) [] cs).map fun (items, cs) => (.array items, cs)
    | '{' :: cs =>
      if depth ≤ 1 then none
      else
        match skipBlanks cs with
        | '}' :: cs => some (.table .value [], cs)
        | cs => (readMembers fuel (depth - 1) [] cs).map fun (ms, cs) => (.table .value ms, cs)
    | cs => readNumeric cs

/-- The items of an array up to the closing bracket, with those `read` already in reverse. A comma
may follow the last one. -/
def readItems : Nat → Nat → List Toml → List Char → Option (List Toml × List Char)
  | 0, _, _, _ => none
  | fuel + 1, depth, read, cs =>
    match skipLayout cs with
    | ']' :: cs => some (read.reverse, cs)
    | cs =>
      match readValue fuel depth cs with
      | none => none
      | some (v, cs) =>
        match skipLayout cs with
        | ',' :: cs => readItems fuel depth (v :: read) cs
        | ']' :: cs => some ((v :: read).reverse, cs)
        | _ => none

/-- The members of a table in braces up to the closing one, added to those `read` already. They all
stand on one line. -/
def readMembers : Nat → Nat → Members → List Char → Option (Members × List Char)
  | 0, _, _, _ => none
  | fuel + 1, depth, read, cs =>
    match readKey cs with
    | some (key, '=' :: cs) =>
      match readValue fuel depth (skipBlanks cs) with
      | none => none
      | some (v, cs) =>
        match insert key v .header read, skipBlanks cs with
        | some read, ',' :: cs => readMembers fuel depth read cs
        | some read, '}' :: cs => some (read, cs)
        | _, _ => none
    | _ => none

end

/-- A document in the making, and the path of the table that is being filled. -/
structure Draft where
  root : Members := []
  current : List String := []

/-- Adds a value under a key to the table that is being filled. -/
def Draft.insert (d : Draft) (key : List String) (v : Toml) : Option Draft := do
  return { d with root := ← alter .passing (Toml.insert key v) d.current .header d.root }

/-- A header behind its opening brackets, and the rest of its line. -/
def readHeader (closing : List Char) (cs : List Char) : Option (List String × List Char) := do
  let (path, cs) ← readKey cs
  if closing.isPrefixOf cs then
    return (path, ← readLineEnd (cs.drop closing.length))
  else none

/-- A line that says something: a header, or a key with its value. -/
def readStatement (d : Draft) (cs : List Char) : Option (Draft × List Char) :=
  match cs with
  | '[' :: '[' :: cs => do
    let (path, cs) ← readHeader [']', ']'] cs
    return (⟨← openNext path d.root, path⟩, cs)
  | '[' :: cs => do
    let (path, cs) ← readHeader [']'] cs
    return (⟨← openTable path d.root, path⟩, cs)
  | cs =>
    match readKey cs with
    | some (key, '=' :: cs) => do
      let (v, cs) ← readValue (2 * cs.length + 2) depthLimit (skipBlanks cs)
      return (← d.insert key v, ← readLineEnd cs)
    | _ => none

/-- The lines of a document, of which there are at most `fuel`. -/
def readLinesOf : Nat → Draft → List Char → Option Members
  | 0, _, _ => none
  | fuel + 1, d, cs =>
    match skipLayout cs with
    | [] => some d.root
    | '#' :: cs => if (cs.dropWhile isShown).isEmpty then some d.root else none
    | cs =>
      match readStatement d cs with
      | some (d, cs) => readLinesOf fuel d cs
      | none => none

/-- The table of a whole document. A mark of the byte order at its start says nothing. -/
def parse? (text : String) : Option Members :=
  let cs := match text.toList with
    | '\uFEFF' :: cs => cs
    | cs => cs
  readLinesOf (cs.length + 1) {} cs

end StateHistory.Toml
