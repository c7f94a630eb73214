import StateHistory.CommandLine.Pattern.Size

/-!
# Reading patterns

The written form of patterns. Characters stand for themselves but for the marks of repetitions,
alternatives, classes, groups and ends. A pattern whose writing nests too deep is none, nor is one
that takes too much room.
-/

namespace StateHistory.Pattern

/-- How deep the writing of a pattern can nest. -/
def depthLimit : Nat := 250

/-- An expression and how deep its writing nests: a repetition, a group, a class, a sequence and a
choice stand one level above what they hold. -/
structure Written where
  expression : Expression
  depth : Nat

namespace Written

/-- What is written as a part of something. -/
def inside (f : Expression → Expression) (w : Written) : Written := ⟨f w.expression, w.depth + 1⟩

/-- The level above several parts; a single part stands for itself. -/
def join (f : List Expression → Expression) : List Written → Written
  | [w] => w
  | ws => ⟨f (ws.map (·.expression)), ws.foldl (fun n w => max n (w.depth + 1)) 0⟩

/-- Parts after each other. -/
def sequence (ws : List Written) : Written := join .ofSequence ws

/-- Parts to choose from. -/
def choice (ws : List Written) : Written := join (.ofChoice depthLimit) ws

end Written

/-- The largest number of a counted repetition. -/
def countLimit : Nat := 4294967295

def digitsValue (ds : List Char) : Nat := ds.foldl (fun n c => n * 10 + (c.toNat - '0'.toNat)) 0

/-- A number of repetitions, between blanks. -/
def readCount (cs : List Char) : Option (Nat × List Char) :=
  let cs := cs.dropWhile Text.isBlank
  match cs.takeWhile Char.isDigit with
  | [] => none
  | ds =>
    if digitsValue ds ≤ countLimit then
      some (digitsValue ds, (cs.drop ds.length).dropWhile Text.isBlank)
    else none

/-- A counted repetition behind its opening brace: its bounds. -/
def readCounts (cs : List Char) : Option ((Nat × Option Nat) × List Char) := do
  let (low, cs) ← readCount cs
  match cs with
  | '\x7d' :: cs => return ((low, some low), cs)
  | ',' :: '\x7d' :: cs => return ((low, none), cs)
  | ',' :: cs =>
    let (high, cs) ← readCount cs
    match cs with
    | '\x7d' :: cs => if low ≤ high then some ((low, some high), cs) else none
    | _ => none
  | _ => none

/-- Passes over the mark that prefers short stretches, which finds the same texts. -/
def skipLazy : List Char → List Char
  | '?' :: cs => cs
  | cs => cs

/-- The repetitions behind a pattern, at most `fuel` of them. -/
def readRepetitions : Nat → Written → List Char → Option (Written × List Char)
  | 0, w, cs => some (w, cs)
  | fuel + 1, w, cs =>
    let go (low : Nat) (high : Option Nat) (cs : List Char) : Option (Written × List Char) :=
      readRepetitions fuel (w.inside (.ofRepetition low high)) (skipLazy cs)
    match cs with
    | '*' :: cs => go 0 none cs
    | '+' :: cs => go 1 none cs
    | '?' :: cs => go 0 (some 1) cs
    | '\x7b' :: cs =>
      match readCounts cs with
      | some ((low, high), cs) => go low high cs
      | none => none
    | cs => some (w, cs)

/-- A set of characters named by a letter. -/
def namedSet : Char → Option CharSet
  | 'd' => some .digit
  | 'D' => some CharSet.digit.complement
  | 's' => some .blank
  | 'S' => some CharSet.blank.complement
  | 'w' => some .word
  | 'W' => some CharSet.word.complement
  | _ => none

/-- The character of an escape: one by its letter, or a mark that stands for itself. -/
def escapedChar (c : Char) : Option Char :=
  match c with
  | 'a' => some '\x07'
  | 'f' => some '\x0c'
  | 't' => some '\t'
  | 'n' => some '\n'
  | 'r' => some '\r'
  | 'v' => some '\x0b'
  | c => if c.toNat < 128 && !c.isAlphanum && c ≠ '<' && c ≠ '>' then some c else none

/-- An item of a class: a set by its letter, or the first character of a range. -/
def readItem : List Char → Option ((CharSet ⊕ Char) × List Char)
  | '\\' :: c :: cs =>
    match namedSet c with
    | some set => some (.inl set, cs)
    | none => (escapedChar c).map fun c => (.inr c, cs)
  | '\\' :: [] => none
  | c :: cs => some (.inr c, cs)
  | [] => none

/-- The set of an item, with the end of its range if it has one. -/
def readSpan (cs : List Char) : Option (CharSet × List Char) :=
  match readItem cs with
  | none => none
  | some (.inl set, cs) => some (set, cs)
  | some (.inr low, '-' :: ']' :: cs) => some (.one low, '-' :: ']' :: cs)
  | some (.inr low, '-' :: cs) =>
    match readItem cs with
    | some (.inr high, cs) => if low ≤ high then some (.between low high, cs) else none
    | _ => none
  | some (.inr c, cs) => some (.one c, cs)

/-- The items of a class up to its closing bracket, added to those read already. -/
def readItems : Nat → List CharSet → List Char → Option (List CharSet × List Char)
  | 0, _, _ => none
  | _ + 1, sets, ']' :: cs => some (sets, cs)
  | _ + 1, _, '[' :: _ => none
  | fuel + 1, sets, cs =>
    match readSpan cs with
    | some (set, cs) => readItems fuel (set :: sets) cs
    | none => none

/-- A class of at most `fuel` items behind its opening bracket. A closing bracket that comes first
belongs to the class. Several items stand one level below the class. -/
def readClass (fuel : Nat) (cs : List Char) : Option (Written × List Char) :=
  let (negated, cs) := match cs with
    | '^' :: cs => (true, cs)
    | cs => (false, cs)
  let (sets, cs) : List CharSet × List Char := match cs with
    | ']' :: cs => ([.one ']'], cs)
    | cs => ([], cs)
  (readItems fuel sets cs).map fun (sets, cs) =>
    let set := CharSet.union sets
    (⟨.ofSet (if negated then set.complement else set), if sets.length ≤ 1 then 1 else 2⟩, cs)

/-- What follows the opening parenthesis of a group, whose name says nothing here: is the group
remembered, and the rest behind it. -/
def readGroupMark : List Char → Option (Bool × List Char)
  | '?' :: ':' :: cs => some (false, cs)
  | '?' :: 'P' :: '<' :: cs | '?' :: '<' :: cs =>
    match cs.takeWhile (· != '>') with
    | c :: name =>
      if (c.isAlpha || c == '_') && name.all (fun c => c.isAlphanum || c == '_') then
        match cs.drop (name.length + 1) with
        | _ :: cs => some (true, cs)
        | [] => none
      else none
    | [] => none
  | '?' :: _ => none
  | cs => some (true, cs)

/-- What an escape says. -/
def readEscape (c : Char) : Option Expression :=
  match c, namedSet c with
  | 'A', _ => some .start
  | 'z', _ => some .stop
  | _, some set => some (.ofSet set)
  | c, none => (escapedChar c).map fun c => .text [c]

/-- What is written without parts. -/
def plain (a : Expression) (cs : List Char) : Option (Written × List Char) := some (⟨a, 0⟩, cs)

mutual

/-- The alternatives up to a closing parenthesis or the end. -/
def readChoice : Nat → List Char → Option (List Written × List Char)
  | 0, _ => none
  | fuel + 1, cs =>
    match readSequence fuel [] cs with
    | none => none
    | some (w, '|' :: cs) => (readChoice fuel cs).map fun (ws, cs) => (w :: ws, cs)
    | some (w, cs) => some ([w], cs)

/-- Patterns after each other, with those read already in reverse. -/
def readSequence : Nat → List Written → List Char → Option (Written × List Char)
  | 0, _, _ => none
  | _ + 1, read, [] => some (.sequence read.reverse, [])
  | fuel + 1, read, c :: cs =>
    if c = '|' || c = ')' then some (.sequence read.reverse, c :: cs)
    else
      match readAtom fuel c cs with
      | none => none
      | some (w, cs) =>
        match readRepetitions fuel w cs with
        | some (w, cs) => readSequence fuel (w :: read) cs
        | none => none

/-- A pattern that starts with the character `c`. -/
def readAtom : Nat → Char → List Char → Option (Written × List Char)
  | 0, _, _ => none
  | fuel + 1, c, cs =>
    match c with
    | '.' => plain (.ofSet (CharSet.one '\n').complement) cs
    | '^' => plain .start cs
    | '$' => plain .stop cs
    | '[' => readClass fuel cs
    | '(' =>
      match readGroupMark cs with
      | none => none
      | some (remembered, cs) =>
        match readChoice fuel cs with
        | some (ws, ')' :: cs) =>
          some ((Written.choice ws).inside (if remembered then .group else id), cs)
        | _ => none
    | '\\' =>
      match cs with
      | c :: cs =>
        match readEscape c with
        | some a => plain a cs
        | none => none
      | [] => none
    | '*' | '+' | '?' | '\x7b' => none
    | c => plain (.text [c]) cs

end

/-- The pattern that a text writes. -/
def parse? (text : String) : Option Pattern :=
  match readChoice (3 * text.length + 3) text.toList with
  | some (ws, []) =>
    let w := Written.choice ws
    if w.depth ≤ depthLimit && w.expression.hasRoom then some w.expression.pattern else none
  | _ => none

end StateHistory.Pattern
