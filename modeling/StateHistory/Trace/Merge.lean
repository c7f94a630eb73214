import StateHistory.Trace.Source

/-!
# Merging event sources

A merge holds one event of each source at hand and hands out the earliest, of several the one of the
first source, before it asks that source again. Before its first event it asks every source once.

A failure of a source ends the call it happens in. Asking all sources starts anew on the next call,
and an event that is taken when the source it came from fails is lost. What a source then has in
line can be more than the one event at hand: such a turn finds nothing and gives nothing.
-/

namespace StateHistory

/-- The state of a merge. `turns` are the times and sources in line, the next one first; `heads` are
the events at hand. -/
structure Merge where
  sources : List Source
  heads : List (Option Event)
  turns : List (Time × Nat)
  primed : Bool
deriving Inhabited

namespace Merge

def ofSources (sources : List Source) : Merge :=
  ⟨sources, sources.map fun _ => none, [], false⟩

/-- Puts a turn in line, ordered by time and then by source. -/
def insertTurn (turn : Time × Nat) : List (Time × Nat) → List (Time × Nat)
  | [] => [turn]
  | other :: rest =>
    if other.1 < turn.1 ∨ (other.1 = turn.1 ∧ other.2 ≤ turn.2) then
      other :: insertTurn turn rest
    else turn :: other :: rest

/-- Asks source `i` for its next event. -/
def refill (m : Merge) (i : Nat) : Option ReadFailure × Merge :=
  match (m.sources.getD i ⟨[]⟩).next with
  | (.event e, s) =>
    (none, { m with
      sources := m.sources.set i s
      heads := m.heads.set i (some e)
      turns := insertTurn (e.timestamp, i) m.turns })
  | (.nothing, s) => (none, { m with sources := m.sources.set i s })
  | (.failure f, s) => (some f, { m with sources := m.sources.set i s })

/-- Asks the given sources in order, up to the first failure. -/
def refillAll (m : Merge) : List Nat → Option ReadFailure × Merge
  | [] => (none, m)
  | i :: rest =>
    match m.refill i with
    | (none, m) => m.refillAll rest
    | (some f, m) => (some f, m)

/-- Hands out the event whose turn it is and asks its source again. -/
def takeTurn (m : Merge) : Read × Merge :=
  match m.turns with
  | [] => (.nothing, m)
  | (_, i) :: turns =>
    let event := m.heads.getD i none
    match { m with turns, heads := m.heads.set i none }.refill i with
    | (some f, m) => (.failure f, m)
    | (none, m) => (event.elim .nothing .event, m)

/-- The next read. -/
def next (m : Merge) : Read × Merge :=
  if m.primed then m.takeTurn
  else
    match m.refillAll (List.range m.sources.length) with
    | (some f, m) => (.failure f, m)
    | (none, m) => { m with primed := true }.takeTurn

/-- Is there nothing left, now and later? -/
def isSpent (m : Merge) : Bool := m.primed && m.turns.isEmpty

/-- The reads left, at most `fuel` of them. -/
def reads : Nat → Merge → List Read
  | 0, _ => []
  | fuel + 1, m =>
    if m.isSpent then []
    else
      let (read, m) := m.next
      read :: reads fuel m

/-- A bound on the reads of a merge: each takes a turn or a read of some source, and a read of a
source adds at most one turn. -/
def measure (m : Merge) : Nat :=
  2 * (m.sources.flatMap (·.reads)).length + m.turns.length + (if m.primed then 0 else 1)

end Merge

/-- The source that merges several. -/
def Source.merged (sources : List Source) : Source :=
  let m := Merge.ofSources sources
  ⟨m.reads m.measure⟩

end StateHistory
