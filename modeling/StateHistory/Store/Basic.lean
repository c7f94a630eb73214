import StateHistory.Attribute.Tree
import StateHistory.Timeline.Basic

/-!
# Stores

A store holds all that one state system knows: the attribute tree, a timeline for each attribute,
and the bounds of the recorded time. It grows until it is closed.

An edit is a change that can fail. A failing edit still hands on the store as it left it, so what a
failure leaves behind is for each edit to say.
-/

namespace StateHistory

/-- The data of one state system. -/
structure Store where
  tree : Tree
  timelines : Array Timeline
  /-- The first recorded time. -/
  start : Option Time
  /-- The time that recording has reached. -/
  stop : Option Time
  closed : Bool
deriving DecidableEq, Repr

namespace Store

/-- The store before anything is recorded: the root with an empty timeline. -/
def new : Store := ⟨.empty, #[{}], none, none, false⟩

/-- The store with no timelines at all, not even one for the root. -/
def bare : Store := ⟨.empty, #[], none, none, false⟩

instance : Inhabited Store := ⟨new⟩

/-- A change to a store. -/
abbrev Edit := EStateM Failure Store

/-- Asks the store without changing it. -/
def Edit.ask (f : Store → Except Failure α) : Edit α := fun s =>
  match f s with
  | .ok a => .ok a s
  | .error e => .error e s

/-- Refuses a quark that the tree does not have. -/
def checkQuark (s : Store) (q : Quark) : Except Failure Unit :=
  if s.tree.contains q then .ok () else .error (.invalidQuark q)

/-- The timeline of a quark, refusing a quark without one. -/
def timeline (s : Store) (q : Quark) : Except Failure Timeline :=
  match s.timelines[q.index]? with
  | some l => .ok l
  | none => .error (.invalidQuark q)

/-- The timeline of a quark, empty for a quark without one. -/
def timelineOf (s : Store) (q : Quark) : Timeline := s.timelines.getD q.index {}

/-- The ongoing value of a quark, null for a quark without a timeline. -/
def valueOf (s : Store) (q : Quark) : Value := (s.timelineOf q).value

/-- The store with another timeline for `q`. -/
def setTimeline (s : Store) (q : Quark) (l : Timeline) : Store :=
  { s with timelines := s.timelines.setIfInBounds q.index l }

/-- The store with empty timelines for the attributes that have none. -/
def cover (s : Store) : Store :=
  { s with timelines := s.timelines ++ Array.replicate (s.tree.size - s.timelines.size) {} }

/-- The store after recording has reached `t`. -/
def reach (s : Store) (t : Time) : Store :=
  match s.start with
  | none => { s with start := some t, stop := some t }
  | some _ => { s with stop := some (s.stop.elim t (max · t)) }

/-- The failure of writing before `last`, or after the store was closed. -/
def lateFor (s : Store) (q : Option Quark) (t : Time) : Failure :=
  .orderingViolation q t (s.stop.getD t)

/-- Refuses a time before the first recorded one, and any time once the store is closed. -/
def checkTime (s : Store) (q : Option Quark) (t : Time) : Except Failure Unit :=
  if s.closed then .error (s.lateFor q t)
  else
    match s.start.filter fun start => t < start with
    | some start => .error (.orderingViolation q t start)
    | none => .ok ()

/-- Refuses a write to `q` at `t` that would come too early or too late. -/
def checkWritable (s : Store) (q : Quark) (t : Time) : Except Failure Unit := do
  s.checkTime (some q) t
  match (← s.timeline q).tooEarly t with
  | some floor => .error (.orderingViolation (some q) t floor)
  | none => .ok ()

end Store

end StateHistory
