import StateHistory.CommandLine.Pattern.Expression

/-!
# Sizes of patterns

A pattern is refused where it would take too much room. The room is that of two machines that read
a text byte by byte, one forwards and one backwards: a number of bytes for each state and more for
each way that leads on from a state.
-/

namespace StateHistory

/-! ## Room -/

/-- The room of a state with at most one way on. -/
def Expression.stateRoom : Nat := 32

/-- The room of a state that reads a byte of one of `n` ranges. -/
def Expression.tableRoom (n : Nat) : Nat := stateRoom + 8 * n

/-- The room of a state with `n` ways on that read nothing. -/
def Expression.branchRoom (n : Nat) : Nat := stateRoom + 4 * n

namespace CharSet

open Expression

/-- How many bytes the longest spelling has. -/
def longest : Nat := 4

/-- The ranges that some spellings begin with. -/
def fronts (l : List Spelling) : List (Nat × Nat) := (l.filterMap List.head?).eraseDups

/-- How the spellings that begin with a range go on. -/
def behind (front : Nat × Nat) (l : List Spelling) : List Spelling :=
  l.filterMap fun
    | first :: rest => if first = front then some rest else none
    | [] => none

/-- How some spellings of at most `n` bytes go on, where they do, after each beginning they have. -/
def endings : Nat → List Spelling → List (List Spelling)
  | 0, _ => []
  | n + 1, l =>
    if l = [[]] then [] else l :: (fronts l).flatMap fun front => endings n (behind front l)

/-- How many beginnings some spellings of at most `n` bytes have. -/
def beginnings : Nat → List Spelling → Nat
  | 0, _ => 0
  | n + 1, l =>
    (fronts l).foldl (fun total front => total + 1 + beginnings n (behind front l)) 0

/-- The room of a machine that reads a character of a set forwards. Beginnings that go on alike lead
to the same state. -/
def roomForwards (s : CharSet) : Nat :=
  if s.isAscii then stateRoom + tableRoom s.ranges.length
  else
    let states := (endings longest s.spellings).eraseDups
    states.foldl (fun room l => room + tableRoom (fronts l).length) stateRoom

/-- The room of a machine that reads a character of a set backwards. It branches to the last byte of
each spelling; spellings share the states of the bytes they begin with. -/
def roomBackwards (s : CharSet) : Nat :=
  if s.isAscii then stateRoom + tableRoom s.ranges.length
  else stateRoom + branchRoom s.spellings.length + stateRoom * beginnings longest s.spellings

end CharSet

namespace Expression

/-- What counts of an expression for the room of the machines. -/
structure Measure where
  forwards : Nat
  backwards : Nat
  /-- No empty stretch fits. -/
  solid : Bool := false
  /-- Only empty stretches fit. -/
  hollow : Bool := false
  /-- All that fits begins at the start of the text. -/
  opens : Bool := false
  /-- All that fits ends at the end of the text. -/
  closes : Bool := false
deriving Repr, Inhabited

namespace Measure

/-- A single state that reads nothing. -/
def point : Measure := { forwards := stateRoom, backwards := stateRoom, hollow := true }

/-- Expressions after each other. Before the first that is not hollow, each can hold the start. -/
def inSequence (l : List Measure) : Measure where
  forwards := l.foldl (· + ·.forwards) 0
  backwards := l.foldl (· + ·.backwards) 0
  solid := l.any (·.solid)
  hollow := l.all (·.hollow)
  opens := (l.takeWhile (·.hollow)).any (·.opens) || (l.find? (!·.hollow)).any (·.opens)
  closes := (l.reverse.takeWhile (·.hollow)).any (·.closes) ||
    (l.reverse.find? (!·.hollow)).any (·.closes)

/-- Expressions to choose from: a branch to each and a state where they meet. -/
def inChoice (l : List Measure) : Measure where
  forwards := l.foldl (· + ·.forwards) (stateRoom + branchRoom l.length)
  backwards := l.foldl (· + ·.backwards) (stateRoom + branchRoom l.length)
  solid := l.all (·.solid)
  hollow := l.all (·.hollow)
  opens := l.all (·.opens)
  closes := l.all (·.closes)

/-- The room of repetitions of an expression of the given room. Each repetition that can be left out
has a branch of its own. Any number of them shares one, and one more where the empty stretch
fits. -/
def roomRepeated (solid : Bool) (room : Nat) : Nat → Option Nat → Nat
  | 0, none => if solid then branchRoom 2 + room else room + 2 * branchRoom 2 + stateRoom
  | low, none => low * room + branchRoom 2
  | 0, some 1 => branchRoom 2 + room + stateRoom
  | low, some high =>
    if low = high then low * room
    else (if low = 0 then stateRoom else low * room) + stateRoom +
      (high - low) * (branchRoom 2 + room)

def inRepetition (low : Nat) (high : Option Nat) (m : Measure) : Measure where
  forwards := roomRepeated m.solid m.forwards low high
  backwards := roomRepeated m.solid m.backwards low high
  solid := 0 < low && m.solid
  hollow := high.isSome && m.hollow
  opens := 0 < low && m.opens
  closes := 0 < low && m.closes

end Measure

mutual

def measure : Expression → Measure
  | empty => .point
  | text cs =>
    let room := stateRoom * cs.foldl (fun n c => n + c.utf8Size) 0
    { forwards := room, backwards := room, solid := true }
  | set s =>
    { forwards := s.roomForwards, backwards := s.roomBackwards, solid := !s.ranges.isEmpty }
  | start => { Measure.point with opens := true }
  | stop => { Measure.point with closes := true }
  | repeated low high a => a.measure.inRepetition low high
  | group a => { a.measure with forwards := a.measure.forwards + 2 * stateRoom }
  | sequence l => .inSequence (measures l)
  | choice l => .inChoice (measures l)

def measures : List Expression → List Measure
  | [] => []
  | a :: rest => a.measure :: measures rest

end

/-- The room of the machine before a pattern: it passes over the text up to where a stretch starts,
unless that can only be at one end. -/
def roomOfSearch (bound : Bool) : Nat :=
  if bound then stateRoom else branchRoom 2 + stateRoom + tableRoom 1

/-- The room that a machine can take. -/
def roomLimit : Nat := 10485760

/-- Do both machines of a pattern fit? Each ends in a state of its own, and the one that reads
forwards remembers the stretch as a whole. -/
def hasRoom (a : Expression) : Bool :=
  let m := a.measure
  roomOfSearch m.opens + m.forwards + 3 * stateRoom ≤ roomLimit &&
    roomOfSearch m.closes + m.backwards + stateRoom ≤ roomLimit

end Expression

end StateHistory
