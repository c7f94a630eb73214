import StateHistory.Store.Stack

/-!
# Queries of a store

A point query answers with the interval that covers a time. Where nothing is recorded the interval
is null and reaches as far as nothing is. The ongoing state is shown as ending where recording
stands. Times before the start are refused, as are times past the end of a closed store.
-/

namespace StateHistory.Store

def outside (s : Store) (t : Time) : Failure := .timeRange t s.start s.stop

/-- Refuses a time that queries cannot ask for. -/
def checkAsked (s : Store) (t : Time) : Except Failure Unit :=
  match s.start with
  | none => .error (s.outside t)
  | some start =>
    if t < start then .error (s.outside t)
    else if s.closed && s.stop.any (· < t) then .error (s.outside t)
    else .ok ()

/-- The ongoing state of `q` as an interval that ends where recording stands. -/
def presented (s : Store) (q : Quark) (o : Ongoing) (stop : Time) : Interval :=
  ⟨q, o.start, max (s.stop.getD stop) o.start, o.value⟩

/-- The stretch around `t` in which nothing is recorded for `q`. -/
def gapAt (s : Store) (q : Quark) (t : Time) (stop start : Option Time) : Interval where
  quark := q
  start := min (stop.elim (s.start.getD t) (· + 1)) t
  stop := start.elim (max (s.stop.getD t) t) (· - 1)
  value := .null

/-- The interval of `q` that covers `t`. -/
def intervalAt (s : Store) (q : Quark) (t : Time) : Interval :=
  match (s.timelineOf q).lookup t with
  | .closed iv => iv
  | .ongoing o => s.presented q o t
  | .gap stop start => s.gapAt q t stop start

def ongoingValue (q : Quark) (s : Store) : Except Failure Value := do
  return (← s.timeline q).value

def ongoingStart (q : Quark) (s : Store) : Except Failure (Option Time) := do
  return (← s.timeline q).ongoing.map (·.start)

/-- The interval of one attribute that covers `t`. -/
def single (t : Time) (q : Quark) (s : Store) : Except Failure Interval := do
  s.checkQuark q
  s.checkAsked t
  return s.intervalAt q t

/-- The intervals of all attributes that cover `t`, in the order of their quarks. -/
def full (t : Time) (s : Store) : Except Failure (List Interval) := do
  s.checkAsked t
  return (List.range s.tree.size).map fun i => s.intervalAt ⟨i⟩ t

/-- Times in ascending order, each once. -/
def sortedTimes (ts : List Time) : List Time :=
  (ts.mergeSort fun a b => decide (a ≤ b)).eraseReps

/-- The requested times that a query over several times answers for. -/
def answerable (s : Store) (start : Time) (ts : List Time) : List Time :=
  let stop := if s.closed then s.stop.getD Time.latest else Time.latest
  sortedTimes (ts.filter fun t => start ≤ t && t ≤ stop)

/-- Does the interval cover every later time too? While the store grows, one that reaches the end
does. -/
def isOpenEnded (s : Store) (iv : Interval) : Bool := !s.closed && s.stop.all (· ≤ iv.stop)

/-- The intervals of `q` that cover the given ascending times, each reported once: the times that
an interval covers are passed over. -/
def sweep (s : Store) (q : Quark) : Nat → List Time → List Interval
  | 0, _ => []
  | _ + 1, [] => []
  | fuel + 1, t :: ts =>
    let iv := s.intervalAt q t
    let covered (t : Time) : Bool := s.isOpenEnded iv || t ≤ iv.stop
    iv :: s.sweep q fuel (ts.dropWhile covered)

/-- The intervals that cover some requested pair of a quark and a time. -/
def query2d (qs : List Quark) (ts : List Time) (s : Store) :
    Except Failure (List Interval) := do
  qs.forM s.checkQuark
  match s.start with
  | none => return []
  | some start =>
    let ts := s.answerable start ts
    return qs.flatMap fun q => s.sweep q ts.length ts

/-- The recorded intervals of `q` that share a time with `[start, stop]`, in the order of time. -/
def range (q : Quark) (start stop : Time) (s : Store) : Except Failure (List Interval) := do
  let l ← s.timeline q
  let ongoing := (l.ongoing.map fun o => s.presented q o o.start).toList
  return l.closedWithin start stop ++ ongoing.filter (·.intersects start stop)

/-- The recorded intervals of several attributes, one attribute after the other. -/
def rangeOfAll (qs : List Quark) (start stop : Time) (s : Store) :
    Except Failure (List Interval) := do
  return (← qs.mapM fun q => s.range q start stop).flatten

/-- The interval of the value at the top of the stack of `q` at `t`. -/
def top (t : Time) (q : Quark) (s : Store) : Except Failure (Option Interval) := do
  let depth := (← s.single t q).value.asLong.getD 0
  if depth ≤ 0 then return none
  return (s.tree.find? q (slotName depth)).map fun child => s.intervalAt child t

end StateHistory.Store
