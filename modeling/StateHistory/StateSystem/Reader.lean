import StateHistory.StateSystem.Writer
import StateHistory.Text.Quoted

/-!
# Reading a state system

The questions any number of readers can ask. All of them fail once the data was given up, apart from
those about the state of construction.
-/

namespace StateHistory.StateSystem

/-- Is construction complete? -/
def isBuilt (s : StateSystem) : Bool := s.status == .built

/-- Has recording reached `t`, or stopped? -/
def hasReached (s : StateSystem) (t : Time) : Bool :=
  s.status.isFinished || s.published.any (t ≤ ·)

/-- The attribute at `path` below `base`, or a failure that names the whole path. -/
def locate (base : Quark) (path : List String) (s : StateSystem) : Except Failure Quark := do
  let store ← s.live
  match store.tree.find? base path with
  | some q => return q
  | none =>
    let above := (store.tree.path base).toOption.getD []
    throw (.attributeNotFound (Tree.joinPath (above ++ path)))

/-- The recorded intervals of `q` that share a time with `[start, stop]`, which must not be
inverted. -/
def history (q : Quark) (start stop : Time) (s : StateSystem) : Except Failure (List Interval) := do
  let store ← s.live
  if stop < start then throw (.timeRange stop (some start) store.stop)
  store.range q start stop

/-- The recorded intervals of several attributes between two times, given in either order. -/
def histories (qs : List Quark) (a b : Time) (s : StateSystem) :
    Except Failure (List Interval) := do
  (← s.live).rangeOfAll qs (min a b) (max a b)

/-- The first recorded interval of `q` in `[start, stop]` with a value other than null. -/
def firstValue (q : Quark) (start stop : Time) (s : StateSystem) :
    Except Failure (Option Interval) := do
  return (← s.history q start stop).find? fun iv => !iv.value.isNull

/-- The lasting data of the store. -/
def image (s : StateSystem) : Except Failure Image := do return (← s.live).image

/-- The name of a status with its reason in quotes. -/
def statusName : Status → String
  | .building => "Building"
  | .built => "Built"
  | .cancelled => "Cancelled"
  | .failed reason => "Failed(" ++ Text.quoted reason ++ ")"

/-- What diagnostics show of a reader. -/
def describe (s : StateSystem) : String :=
  "StateSystemReader \x7b id: " ++ Text.quoted s.id ++ ", status: " ++ statusName s.status ++
    " \x7d"

end StateHistory.StateSystem
