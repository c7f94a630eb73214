/-!
# Lexemes of TOML

Blanks, comments, strings and keys. Readers take characters from the front of a text and give what
is left. Lines end with a newline, which a carriage return may precede; no other control characters
but tabs stand in a text.
-/

namespace StateHistory.Toml

/-! ## Blanks and comments -/

def isBlank (c : Char) : Bool := c == ' ' || c == '\t'

def skipBlanks (cs : List Char) : List Char := cs.dropWhile isBlank

/-- A character that a line can hold. -/
def isShown (c : Char) : Bool := c == '\t' || (0x20 ≤ c.toNat && c.toNat ≠ 0x7F)

/-- The end of a line. -/
def readNewline : List Char → Option (List Char)
  | '\n' :: cs => some cs
  | '\r' :: '\n' :: cs => some cs
  | _ => none

/-- Passes over a comment, if there is one. -/
def skipComment : List Char → List Char
  | '#' :: cs => cs.dropWhile isShown
  | cs => cs

/-- What may follow on a line that says something already. -/
def readLineEnd (cs : List Char) : Option (List Char) :=
  match skipComment (skipBlanks cs) with
  | [] => some []
  | cs => readNewline cs

/-- Passes over blanks, comments and line ends, of which there are at most `fuel`. -/
def skipLines : Nat → List Char → List Char
  | 0, cs => cs
  | fuel + 1, cs =>
    match readNewline (skipComment (skipBlanks cs)) with
    | some cs => skipLines fuel cs
    | none => skipBlanks cs

/-- Passes over all that says nothing. -/
def skipLayout (cs : List Char) : List Char := skipLines cs.length cs

/-! ## Strings -/

def hexDigit? (c : Char) : Option Nat :=
  if '0' ≤ c && c ≤ '9' then some (c.toNat - '0'.toNat)
  else if 'a' ≤ c && c ≤ 'f' then some (c.toNat - 'a'.toNat + 10)
  else if 'A' ≤ c && c ≤ 'F' then some (c.toNat - 'A'.toNat + 10)
  else none

/-- The number of `width` hexadecimal digits, after a number `n`. -/
def readHex : Nat → Nat → List Char → Option (Nat × List Char)
  | 0, n, cs => some (n, cs)
  | width + 1, n, c :: cs => do readHex width (n * 16 + (← hexDigit? c)) cs
  | _ + 1, _, [] => none

/-- A character by its number, which has to be one of a character. -/
def readNumbered (width : Nat) (cs : List Char) : Option (Char × List Char) := do
  let (n, cs) ← readHex width 0 cs
  if n < 0xD800 ∨ (0xE000 ≤ n ∧ n < 0x110000) then some (Char.ofNat n, cs) else none

/-- The character of an escape behind its backslash. -/
def readEscape : List Char → Option (Char × List Char)
  | 'b' :: cs => some ('\x08', cs)
  | 't' :: cs => some ('\t', cs)
  | 'n' :: cs => some ('\n', cs)
  | 'f' :: cs => some ('\x0c', cs)
  | 'r' :: cs => some ('\r', cs)
  | '"' :: cs => some ('"', cs)
  | '\\' :: cs => some ('\\', cs)
  | 'u' :: cs => readNumbered 4 cs
  | 'U' :: cs => readNumbered 8 cs
  | _ => none

/-- What quotes and escapes a string has. -/
structure Quoting where
  quote : Char
  escapes : Bool

/-- Strings with escapes. -/
def basic : Quoting := ⟨'"', true⟩

/-- Strings that say what they show. -/
def literal : Quoting := ⟨'\'', false⟩

/-- The rest of a string on one line, with the characters `read` already in reverse. -/
def readLine (q : Quoting) : Nat → List Char → List Char → Option (String × List Char)
  | 0, _, _ => none
  | _ + 1, _, [] => none
  | fuel + 1, read, c :: cs =>
    if c = q.quote then some (String.ofList read.reverse, cs)
    else if q.escapes && c = '\\' then
      match readEscape cs with
      | some (c, cs) => readLine q fuel (c :: read) cs
      | none => none
    else if isShown c then readLine q fuel (c :: read) cs
    else none

/-- Passes over blanks and line ends. -/
def skipSpace : List Char → List Char
  | '\r' :: '\n' :: cs => skipSpace cs
  | c :: cs => if isBlank c || c == '\n' then skipSpace cs else c :: cs
  | [] => []

/-- The text behind a backslash that ends a line, from the next thing that is no blank on. -/
def skipFold (cs : List Char) : Option (List Char) :=
  (readNewline (skipBlanks cs)).map skipSpace

/-- The rest of a string over several lines. It ends with three quotes, before which one or two can
stand that belong to it. -/
def readLines (q : Quoting) : Nat → List Char → List Char → Option (String × List Char)
  | 0, _, _ => none
  | _ + 1, _, [] => none
  | fuel + 1, read, c :: cs =>
    if c = q.quote then
      let run := (c :: cs).takeWhile (· == q.quote)
      let rest := (c :: cs).drop run.length
      if run.length < 3 then readLines q fuel (run ++ read) rest
      else if run.length < 6 then
        some (String.ofList ((run.drop 3) ++ read).reverse, rest)
      else none
    else if q.escapes && c = '\\' then
      match readEscape cs with
      | some (c, cs) => readLines q fuel (c :: read) cs
      | none =>
        match skipFold cs with
        | some cs => readLines q fuel read cs
        | none => none
    else
      match readNewline (c :: cs) with
      | some cs => readLines q fuel ('\n' :: read) cs
      | none => if isShown c then readLines q fuel (c :: read) cs else none

/-- A string over several lines; a newline right behind the opening quotes does not belong to it. -/
def readBlock (q : Quoting) (cs : List Char) : Option (String × List Char) :=
  let cs := (readNewline cs).getD cs
  readLines q (cs.length + 1) [] cs

/-- A string on one line, as keys are too. -/
def readQuoted : List Char → Option (String × List Char)
  | '"' :: cs => readLine basic (cs.length + 1) [] cs
  | '\'' :: cs => readLine literal (cs.length + 1) [] cs
  | _ => none

/-- A string of any form. -/
def readString : List Char → Option (String × List Char)
  | '"' :: '"' :: '"' :: cs => readBlock basic cs
  | '\'' :: '\'' :: '\'' :: cs => readBlock literal cs
  | cs => readQuoted cs

/-! ## Keys -/

/-- A character of a key without quotes. -/
def isBare (c : Char) : Bool :=
  ('a' ≤ c && c ≤ 'z') || ('A' ≤ c && c ≤ 'Z') || ('0' ≤ c && c ≤ '9') || c == '-' || c == '_'

def readSimpleKey (cs : List Char) : Option (String × List Char) :=
  match cs.takeWhile isBare with
  | [] => readQuoted cs
  | name => some (String.ofList name, cs.drop name.length)

/-- A key of one or more names with dots between them. -/
def readKeyNames : Nat → List Char → Option (List String × List Char)
  | 0, _ => none
  | fuel + 1, cs =>
    match readSimpleKey (skipBlanks cs) with
    | none => none
    | some (name, cs) =>
      match skipBlanks cs with
      | '.' :: cs => (readKeyNames fuel cs).map fun (names, cs) => (name :: names, cs)
      | cs => some ([name], cs)

/-- How deep keys and values nest, plus one. -/
def depthLimit : Nat := 80

/-- A key, with the blanks around it. -/
def readKey (cs : List Char) : Option (List String × List Char) :=
  (readKeyNames (cs.length + 1) cs).filter fun (names, _) => names.length < depthLimit

end StateHistory.Toml
