import StateHistory.CommandLine.Pattern.CharSet

/-!
# Patterns

A pattern describes texts: characters and classes of characters, the two ends of the text, patterns
after each other, alternatives and repetitions. It finds a text when some stretch of the text fits.

A text is read once, from its first character to its last. What is known of the stretches that may
still fit stands in the pattern itself, as marks on its characters, so that the work for one
character depends on the size of the pattern alone.
-/

namespace StateHistory

/-- A pattern. -/
inductive Pattern where
  | empty
  /-- A character of a set. It is marked while some stretch that may fit has just been read up to
  and with it. -/
  | char (set : CharSet) (marked : Bool)
  | start
  | stop
  | both (a b : Pattern)
  | either (a b : Pattern)
  /-- One or more times. -/
  | more (a : Pattern)
deriving DecidableEq, Repr

namespace Pattern

/-- A character of a set, as it stands before anything is read. -/
def ofSet (set : CharSet) : Pattern := char set false

/-- Once or not at all. -/
def maybe (a : Pattern) : Pattern := either empty a

/-- Any number of times, also none. -/
def many (a : Pattern) : Pattern := maybe (more a)

/-- Each two neighbours joined. -/
def pairUp (f : Pattern → Pattern → Pattern) : List Pattern → List Pattern
  | a :: b :: rest => f a b :: pairUp f rest
  | rest => rest

/-- Joins patterns two by two, in at most `rounds` rounds, so that each stands below few others. -/
def gather (f : Pattern → Pattern → Pattern) : Nat → List Pattern → Pattern
  | _, [] => empty
  | _, [a] => a
  | 0, a :: rest => rest.foldl f a
  | rounds + 1, l => gather f rounds (pairUp f l)

/-- Patterns after each other. -/
def sequence (l : List Pattern) : Pattern := gather both l.length l

/-- Patterns to choose from. -/
def choice (l : List Pattern) : Pattern := gather either l.length l

/-- `n` times in a row. -/
def times (a : Pattern) (n : Nat) : Pattern := sequence (List.replicate n a)

/-- At most `n` times in a row. -/
def upTo (a : Pattern) : Nat → Pattern
  | 0 => empty
  | n + 1 => maybe (both a (upTo a n))

/-- At least `low` and at most `high` times in a row, or any number from `low` on. -/
def repeated (a : Pattern) : Nat → Option Nat → Pattern
  | 0, none => many a
  | 1, none => more a
  | low, none => both (a.times low) (many a)
  | 0, some 1 => maybe a
  | low, some high => both (a.times low) (a.upTo (high - low))

/-! ## Reading a text -/

/-- A place in a text: is it the first, and is it the last? -/
structure Place where
  first : Bool
  last : Bool

/-- Does the empty stretch at a place fit? -/
def fitsEmpty (p : Place) : Pattern → Bool
  | empty => true
  | char _ _ => false
  | start => p.first
  | stop => p.last
  | both a b => b.fitsEmpty p && a.fitsEmpty p
  | either a b => a.fitsEmpty p || b.fitsEmpty p
  | more a => a.fitsEmpty p

/-- Does a stretch that is marked end at the place reached? -/
def fitsMarked (p : Place) : Pattern → Bool
  | char _ marked => marked
  | both a b => b.fitsMarked p || (b.fitsEmpty p && a.fitsMarked p)
  | either a b => a.fitsMarked p || b.fitsMarked p
  | more a => a.fitsMarked p
  | _ => false

/-- Moves the marks over the character `c` behind a place. With `enter`, new stretches start at that
place. -/
def step (p : Place) (c : Char) (enter : Bool) : Pattern → Pattern
  | char set _ => char set (enter && set.has c)
  | both a b => both (a.step p c enter) (b.step p c (a.fitsMarked p || (enter && a.fitsEmpty p)))
  | either a b => either (a.step p c enter) (b.step p c enter)
  | more a => more (a.step p c (enter || a.fitsMarked p))
  | a => a

/-- Does some stretch fit that is marked or starts later? The rest of the text is given. -/
def findsIn (first : Bool) (a : Pattern) : List Char → Bool
  | [] => a.fitsEmpty ⟨first, true⟩ || a.fitsMarked ⟨first, true⟩
  | c :: cs =>
    a.fitsEmpty ⟨first, false⟩ || a.fitsMarked ⟨first, false⟩ ||
      findsIn false (a.step ⟨first, false⟩ c true) cs

/-- Does some stretch of the text fit? -/
def finds (a : Pattern) (text : String) : Bool := findsIn true a text.toList

end Pattern

end StateHistory
