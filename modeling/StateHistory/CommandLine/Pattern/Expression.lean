import StateHistory.CommandLine.Pattern.Basic

/-!
# Expressions

What the writing of a pattern says, in its simplest form: neighbouring characters are one text, no
sequence or choice stands directly in another of its kind, a choice among single characters or
sets is a set, and what all sequences of a choice begin with stands before it.
-/

namespace StateHistory

/-- A pattern as it is written. -/
inductive Expression where
  | empty
  | text (cs : List Char)
  | set (s : CharSet)
  | start
  | stop
  /-- At least `low` and at most `high` times, or any number from `low` on. -/
  | repeated (low : Nat) (high : Option Nat) (a : Expression)
  /-- A group that is remembered. -/
  | group (a : Expression)
  | sequence (parts : List Expression)
  | choice (parts : List Expression)
deriving Repr, Inhabited

namespace Expression

/-! ## Simplest forms -/

mutual

/-- Does only the empty stretch fit? -/
def isHollow : Expression → Bool
  | empty | start | stop => true
  | text _ | set _ => false
  | repeated _ high a => high.isSome && a.isHollow
  | group a => a.isHollow
  | sequence parts | choice parts => allHollow parts

def allHollow : List Expression → Bool
  | [] => true
  | a :: rest => a.isHollow && allHollow rest

end

mutual

/-- Are two expressions the same? No group is the same as another. -/
def same : Expression → Expression → Bool
  | empty, empty | start, start | stop, stop => true
  | text a, text b => a == b
  | set a, set b => a == b
  | repeated low high a, repeated low' high' b => low == low' && high == high' && a.same b
  | sequence a, sequence b => allSame a b
  | choice a, choice b => allSame a b
  | _, _ => false

def allSame : List Expression → List Expression → Bool
  | [], [] => true
  | a :: rest, b :: rest' => a.same b && allSame rest rest'
  | _, _ => false

end

/-- A set of characters; a lone character is a text. -/
def ofSet (s : CharSet) : Expression :=
  match s.single? with
  | some c => text [c]
  | none => set s

/-- Repetitions. Where only the empty stretch fits, once is as good as more often. -/
def ofRepetition (low : Nat) (high : Option Nat) (a : Expression) : Expression :=
  let (low, high) := if a.isHollow then (min low 1, some (min (high.getD 1) 1)) else (low, high)
  match low, high with
  | 0, some 0 => empty
  | 1, some 1 => a
  | low, high => repeated low high a

/-- The parts of a sequence. -/
def parts : Expression → List Expression
  | empty => []
  | sequence l => l
  | a => [a]

/-- Puts a part before others; a text joins the text behind it. -/
def before : Expression → List Expression → List Expression
  | text a, text b :: rest => text (a ++ b) :: rest
  | a, rest => a :: rest

/-- Expressions after each other. -/
def ofSequence (l : List Expression) : Expression :=
  match (l.flatMap parts).foldr before [] with
  | [] => empty
  | [a] => a
  | l => sequence l

/-- The alternatives of a choice. -/
def alternatives : Expression → List Expression
  | choice l => l
  | a => [a]

/-- The set of a text of one character. -/
def single? : Expression → Option CharSet
  | text [c] => some (.one c)
  | _ => none

def set? : Expression → Option CharSet
  | set s => some s
  | _ => none

def sequence? : Expression → Option (List Expression)
  | sequence l => some l
  | _ => none

/-- What two sequences begin with. -/
def common : List Expression → List Expression → List Expression
  | a :: rest, b :: rest' => if a.same b then a :: common rest rest' else []
  | _, _ => []

/-- What all of some sequences begin with. -/
def commonOfAll : List (List Expression) → List Expression
  | [] => []
  | l :: rest => rest.foldl common l

/-- Expressions to choose from. What they begin with is taken out of at most `depth` choices that
come to stand in each other. -/
def ofChoice : Nat → List Expression → Expression
  | depth, l =>
    match l.flatMap alternatives with
    | [a] => a
    | l =>
      match (l.mapM single?).or (l.mapM set?), depth, l.mapM sequence? with
      | some sets, _, _ => ofSet (.union sets)
      | none, depth + 1, some sequences =>
        match commonOfAll sequences with
        | [] => choice l
        | front =>
          let rests := sequences.map fun l => ofSequence (l.drop front.length)
          ofSequence (front ++ [ofChoice depth rests])
      | _, _, _ => choice l

/-! ## Meaning -/

mutual

/-- The pattern of an expression. -/
def pattern : Expression → Pattern
  | empty => .empty
  | text cs => .sequence (cs.map fun c => .ofSet (.one c))
  | set s => .ofSet s
  | start => .start
  | stop => .stop
  | repeated low high a => a.pattern.repeated low high
  | group a => a.pattern
  | sequence l => .sequence (patterns l)
  | choice l => .choice (patterns l)

def patterns : List Expression → List Pattern
  | [] => []
  | a :: rest => a.pattern :: patterns rest

end

end Expression

end StateHistory
