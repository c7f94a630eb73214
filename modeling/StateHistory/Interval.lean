import StateHistory.Attribute.Quark
import StateHistory.Time
import StateHistory.Value

/-!
# Intervals

One piece of the history of an attribute: a value and the first and last time it held. Both bounds
belong to the interval.
-/

namespace StateHistory

/-- A value of one attribute from `start` to `stop`, both included. -/
structure Interval where
  quark : Quark
  start : Time
  stop : Time
  value : Value
deriving DecidableEq, Repr, Inhabited

namespace Interval

def contains (iv : Interval) (t : Time) : Bool := iv.start ≤ t && t ≤ iv.stop

/-- Does the interval share a time with `[start, stop]`? -/
def intersects (iv : Interval) (start stop : Time) : Bool := iv.start ≤ stop && start ≤ iv.stop

/-- The number of times in the interval. -/
def duration (iv : Interval) : Int := iv.stop - iv.start + 1

def text (iv : Interval) : String :=
  iv.quark.text ++ " [" ++ toString iv.start ++ ", " ++ toString iv.stop ++ "] = " ++ iv.value.text

end Interval

end StateHistory
