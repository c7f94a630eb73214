import StateHistory.Failure
import StateHistory.Interval
import StateHistory.Timeline.Bisect

/-!
# Timelines

The history of one attribute: the intervals that are closed, in the order of time, and the ongoing
state, whose end is not known yet. Closed intervals are never changed again.
-/

namespace StateHistory

/-- The state an attribute is in since `start`. -/
structure Ongoing where
  start : Time
  value : Value
deriving DecidableEq, Repr, Inhabited

/-- The history of one attribute. -/
structure Timeline where
  closed : Array Interval := #[]
  ongoing : Option Ongoing := none
deriving DecidableEq, Repr, Inhabited

/-- What a timeline holds at one time. -/
inductive Lookup where
  | closed (interval : Interval)
  | ongoing (state : Ongoing)
  /-- Nothing; `stop` is the end of the nearest interval before the time and `start` the start of
  the nearest one after it. -/
  | gap (stop start : Option Time)
deriving DecidableEq, Repr

namespace Timeline

def last? (l : Timeline) : Option Interval := l.closed.back?

/-- The earliest time at which a value can be written. -/
def floor (l : Timeline) : Option Time :=
  match l.ongoing, l.last? with
  | some o, _ => some o.start
  | none, some iv => some (iv.stop + 1)
  | none, none => none

/-- Is a write at `t` too early? If so, the time it should not precede. -/
def tooEarly (l : Timeline) (t : Time) : Option Time := l.floor.filter fun floor => t < floor

/-- Ends the ongoing state just before `t`; an empty interval is not kept. -/
def cut (l : Timeline) (q : Quark) (t : Time) : Array Interval :=
  match l.ongoing with
  | some o => if o.start < t then l.closed.push ⟨q, o.start, t - 1, o.value⟩ else l.closed
  | none => l.closed

/-- Starts a new state at `t`. -/
def write (l : Timeline) (q : Quark) (t : Time) (v : Value) : Except Failure Timeline :=
  match l.tooEarly t with
  | some floor => .error (.orderingViolation (some q) t floor)
  | none => .ok { closed := l.cut q t, ongoing := some ⟨t, v⟩ }

/-- Changes the value of the ongoing state. Without one, a state starts after the last interval, or
at `default` if there is none. The time after an interval is exact: see `wrapped` for the one in 64
bits. -/
def amend (l : Timeline) (v : Value) (default : Time) : Timeline :=
  match l.ongoing with
  | some o => { l with ongoing := some { o with value := v } }
  | none =>
    let start := match l.last? with
      | some iv => iv.stop + 1
      | none => default
    { l with ongoing := some ⟨start, v⟩ }

/-- The timeline with the start of the ongoing state in 64 bits. After an amendment, this is the
state that starts where nothing comes after the last interval: at the earliest time. -/
def wrapped (l : Timeline) : Timeline :=
  { l with ongoing := l.ongoing.map fun o => { o with start := o.start.wrap } }

/-- Ends the ongoing state just before `t`, but not before its own start, and gives the last time
it held. -/
def close (l : Timeline) (q : Quark) (t : Time) : Option Time × Timeline :=
  match l.ongoing with
  | some o =>
    let stop := max t.before o.start
    (some stop, { closed := l.closed.push ⟨q, o.start, stop, o.value⟩, ongoing := none })
  | none => (none, l)

/-- The ongoing value, null if there is none. -/
def value (l : Timeline) : Value :=
  match l.ongoing with
  | some o => o.value
  | none => .null

/-- Does the closed interval at a position satisfy `p`? -/
def closedAt (l : Timeline) (p : Interval → Bool) (i : Nat) : Bool :=
  match l.closed[i]? with
  | some iv => p iv
  | none => false

/-- How many closed intervals end before `t`. -/
def endedBefore (l : Timeline) (t : Time) : Nat :=
  partitionPoint (l.closedAt fun iv => iv.stop < t) l.closed.size

/-- How many closed intervals start by `t`. -/
def startedBy (l : Timeline) (t : Time) : Nat :=
  partitionPoint (l.closedAt fun iv => iv.start ≤ t) l.closed.size

/-- The start of the ongoing state if it has begun by `t`. -/
def ongoingBy (l : Timeline) (t : Time) : Option Ongoing := l.ongoing.filter fun o => o.start ≤ t

/-- What the timeline holds at `t`. -/
def lookup (l : Timeline) (t : Time) : Lookup :=
  let i := l.endedBefore t
  let next := l.closed[i]?
  match next.filter fun iv => iv.start ≤ t with
  | some iv => .closed iv
  | none =>
    match l.ongoingBy t with
    | some o => .ongoing o
    | none =>
      let previous := if i = 0 then none else l.closed[i - 1]?
      .gap (previous.map (·.stop)) ((next.map (·.start)).or (l.ongoing.map (·.start)))

/-- The closed intervals that share a time with `[start, stop]`. -/
def closedWithin (l : Timeline) (start stop : Time) : List Interval :=
  (l.closed.extract (l.endedBefore start) (l.startedBy stop)).toList

end Timeline

end StateHistory
