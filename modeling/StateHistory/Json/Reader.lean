import StateHistory.Json.Number

/-!
# Reading JSON

Readers take characters from the front of a text and give what is left. Objects come out sorted by
name, the last of several equal names winning. Values nest to a fixed depth; a value that is only
skipped may nest to any depth and its numbers may be of any size.

The fuel of the recursive readers counts characters, so a text never runs out of it.
-/

namespace StateHistory.Json

/-- The blanks between tokens. -/
def isBlank (c : Char) : Bool := c == ' ' || c == '\n' || c == '\t' || c == '\r'

def skipBlanks (cs : List Char) : List Char := cs.dropWhile isBlank

def hexValue (c : Char) : Option Nat :=
  if isDigit c then some (digitValue c)
  else if 'a' ≤ c && c ≤ 'f' then some (c.toNat - 'a'.toNat + 10)
  else if 'A' ≤ c && c ≤ 'F' then some (c.toNat - 'A'.toNat + 10)
  else none

/-- The number of four hexadecimal digits. -/
def readHex : List Char → Option (Nat × List Char)
  | a :: b :: c :: d :: rest => do
    let a ← hexValue a
    let b ← hexValue b
    let c ← hexValue c
    let d ← hexValue d
    return (((a * 16 + b) * 16 + c) * 16 + d, rest)
  | _ => none

/-- The character of an escape that is not given by number. -/
def simpleEscape : Char → Option Char
  | '"' => some '"'
  | '\\' => some '\\'
  | '/' => some '/'
  | 'b' => some '\x08'
  | 'f' => some '\x0c'
  | 'n' => some '\n'
  | 'r' => some '\r'
  | 't' => some '\t'
  | _ => none

/-- The character given by the number of an escape. Characters past the first plane are written as
a pair of surrogates, and a surrogate does not stand alone. -/
def readUnicode (cs : List Char) : Option (Char × List Char) := do
  let (n, cs) ← readHex cs
  if 0xD800 ≤ n ∧ n < 0xDC00 then
    match cs with
    | '\\' :: 'u' :: cs =>
      let (m, cs) ← readHex cs
      guard (decide (0xDC00 ≤ m ∧ m < 0xE000))
      return (Char.ofNat (0x10000 + (n - 0xD800) * 0x400 + (m - 0xDC00)), cs)
    | _ => none
  else
    guard (decide ¬(0xDC00 ≤ n ∧ n < 0xE000))
    return (Char.ofNat n, cs)

/-- One character of a string. Control characters have to be escaped. -/
def readChar : List Char → Option (Char × List Char)
  | '\\' :: 'u' :: cs => readUnicode cs
  | '\\' :: c :: cs => (simpleEscape c).map (·, cs)
  | c :: cs => if c.toNat < 0x20 then none else some (c, cs)
  | [] => none

/-- The rest of a string up to the closing quote, with the characters `read` already in reverse. A
text at least as long bounds the number of characters. -/
def readChars : List Char → List Char → List Char → Option (String × List Char)
  | [], _, _ => none
  | _ :: _, read, '"' :: cs => some (String.ofList read.reverse, cs)
  | _ :: bound, read, cs =>
    match readChar cs with
    | some (c, cs) => readChars bound (c :: read) cs
    | none => none

/-- The rest of a string whose opening quote is read. -/
def readString (cs : List Char) : Option (String × List Char) := readChars cs [] cs

mutual

/-- A value, nesting fewer than `depth` containers. -/
def readValue : Nat → Nat → List Char → Option (Json × List Char)
  | 0, _, _ => none
  | fuel + 1, depth, cs =>
    match skipBlanks cs with
    | 'n' :: 'u' :: 'l' :: 'l' :: cs => some (.null, cs)
    | 't' :: 'r' :: 'u' :: 'e' :: cs => some (.bool true, cs)
    | 'f' :: 'a' :: 'l' :: 's' :: 'e' :: cs => some (.bool false, cs)
    | '"' :: cs => (readString cs).map fun (s, cs) => (.string s, cs)
    | '[' :: cs =>
      if depth ≤ 1 then none else
      match skipBlanks cs with
      | ']' :: cs => some (.array [], cs)
      | cs => (readItems fuel (depth - 1) [] cs).map fun (items, cs) => (.array items, cs)
    | '{' :: cs =>
      if depth ≤ 1 then none else
      (readObject fuel (depth - 1) cs).map fun (members, cs) => (.object members, cs)
    | cs => do
      let (l, cs) ← readLiteral cs
      return (← l.value, cs)

/-- The items of an array up to the closing bracket, with those `read` already in reverse. -/
def readItems : Nat → Nat → List Json → List Char → Option (List Json × List Char)
  | 0, _, _, _ => none
  | fuel + 1, depth, read, cs =>
    match readValue fuel depth cs with
    | some (v, cs) =>
      match skipBlanks cs with
      | ',' :: cs => readItems fuel depth (v :: read) cs
      | ']' :: cs => some ((v :: read).reverse, cs)
      | _ => none
    | none => none

/-- The members of an object whose opening brace is read. -/
def readObject : Nat → Nat → List Char → Option (List (String × Json) × List Char)
  | 0, _, _ => none
  | fuel + 1, depth, cs =>
    match skipBlanks cs with
    | '}' :: cs => some ([], cs)
    | cs => readMembers fuel depth [] cs

/-- The members of an object up to the closing brace, added to those `read` already. -/
def readMembers : Nat → Nat → List (String × Json) → List Char →
    Option (List (String × Json) × List Char)
  | 0, _, _, _ => none
  | fuel + 1, depth, read, cs =>
    match skipBlanks cs with
    | '"' :: cs =>
      match readString cs with
      | some (name, cs) =>
        match skipBlanks cs with
        | ':' :: cs =>
          match readValue fuel depth cs with
          | some (v, cs) =>
            match skipBlanks cs with
            | ',' :: cs => readMembers fuel depth (insert name v read) cs
            | '}' :: cs => some (insert name v read, cs)
            | _ => none
          | none => none
        | _ => none
      | none => none
    | _ => none

end

/-- Passes over one character of a string. Numbers of escapes need not name a character. -/
def skipChar : List Char → Option (List Char)
  | '\\' :: 'u' :: cs => (readHex cs).map (·.2)
  | '\\' :: c :: cs => (simpleEscape c).map fun _ => cs
  | c :: cs => if c.toNat < 0x20 then none else some cs
  | [] => none

/-- Passes over the rest of a string up to the closing quote. A text at least as long bounds the
number of characters. -/
def skipChars : List Char → List Char → Option (List Char)
  | [], _ => none
  | _ :: _, '"' :: cs => some cs
  | _ :: bound, cs =>
    match skipChar cs with
    | some cs => skipChars bound cs
    | none => none

/-- Passes over the rest of a string whose opening quote is read. -/
def skipString (cs : List Char) : Option (List Char) := skipChars cs cs

mutual

/-- Passes over a value of any depth. -/
def skipValue : Nat → List Char → Option (List Char)
  | 0, _ => none
  | fuel + 1, cs =>
    match skipBlanks cs with
    | 'n' :: 'u' :: 'l' :: 'l' :: cs => some cs
    | 't' :: 'r' :: 'u' :: 'e' :: cs => some cs
    | 'f' :: 'a' :: 'l' :: 's' :: 'e' :: cs => some cs
    | '"' :: cs => skipString cs
    | '[' :: cs =>
      match skipBlanks cs with
      | ']' :: cs => some cs
      | cs => skipItems fuel cs
    | '{' :: cs =>
      match skipBlanks cs with
      | '}' :: cs => some cs
      | cs => skipMembers fuel cs
    | cs => (readLiteral cs).map (·.2)

def skipItems : Nat → List Char → Option (List Char)
  | 0, _ => none
  | fuel + 1, cs =>
    match skipValue fuel cs with
    | some cs =>
      match skipBlanks cs with
      | ',' :: cs => skipItems fuel cs
      | ']' :: cs => some cs
      | _ => none
    | none => none

def skipMembers : Nat → List Char → Option (List Char)
  | 0, _ => none
  | fuel + 1, cs =>
    match skipBlanks cs with
    | '"' :: cs =>
      match skipString cs with
      | some cs =>
        match skipBlanks cs with
        | ':' :: cs =>
          match skipValue fuel cs with
          | some cs =>
            match skipBlanks cs with
            | ',' :: cs => skipMembers fuel cs
            | '}' :: cs => some cs
            | _ => none
          | none => none
        | _ => none
      | none => none
    | _ => none

end

/-- A value at the front of the text, with room for the deepest nesting it may have. -/
def readAt (depth : Nat) (cs : List Char) : Option (Json × List Char) :=
  readValue (2 * cs.length + 2) depth cs

/-- How many containers a text may nest, the outermost included, plus one. -/
def depthLimit : Nat := 128

/-- The value that a whole text holds. -/
def parse? (text : String) : Option Json :=
  match readAt depthLimit text.toList with
  | some (v, cs) => if (skipBlanks cs).isEmpty then some v else none
  | none => none

end StateHistory.Json
