import StateHistory.Attribute.Quark
import StateHistory.Time

/-!
# Failures

Why an operation on a state system did not happen. A fatal failure means that the rest of the trace
cannot be recorded either; any other concerns a single event.
-/

namespace StateHistory

/-- The causes an operation on a state system fails for. -/
inductive Failure where
  /-- A lookup that creates nothing did not find the path. -/
  | attributeNotFound (path : String)
  /-- No attribute has this quark. -/
  | invalidQuark (quark : Quark)
  /-- A pop met an empty stack. -/
  | stackUnderflow (quark : Quark) (time : Time)
  /-- A query lies outside the bounds, which are missing while nothing was recorded. -/
  | timeRange (time : Time) (start stop : Option Time)
  /-- The ongoing value has another kind than the operation works on. -/
  | typeMismatch (quark : Quark) (expected found : String)
  /-- An increment left the range of its type. -/
  | integerOverflow (quark : Quark) (value delta : Int)
  /-- The recorded data was given up. -/
  | disposed (id : String)
  /-- A write came earlier than what is already recorded. -/
  | orderingViolation (quark : Option Quark) (time last : Time)
  /-- Recording was called off. -/
  | cancelled
  /-- A saved history could not be read or written. -/
  | persistence (reason : String)
deriving DecidableEq, Repr, Inhabited

namespace Failure

/-- Recording cannot go on after a failure of order, of the store or of its file. -/
def isFatal : Failure → Bool
  | orderingViolation .. | disposed _ | cancelled | persistence _ => true
  | _ => false

/-- A pair of bounds, or a note that there are none. -/
def rangeText : Option Time → Option Time → String
  | some start, some stop => "[" ++ toString start ++ ", " ++ toString stop ++ "]"
  | _, _ => "(empty)"

def message : Failure → String
  | attributeNotFound path => "Attribute not found: " ++ path
  | invalidQuark q => "Invalid quark " ++ q.text
  | stackUnderflow q t => "Stack underflow on attribute " ++ q.text ++ " at time " ++ toString t
  | timeRange t start stop =>
    "Time " ++ toString t ++ " is outside of the state system range " ++ rangeText start stop
  | typeMismatch q expected found =>
    "Type mismatch on attribute " ++ q.text ++ ": expected " ++ expected ++ ", found " ++ found
  | integerOverflow q value delta =>
    "Integer overflow on attribute " ++ q.text ++ ": " ++ toString value ++ " + " ++ toString delta
  | disposed id => "State system '" ++ id ++ "' has been disposed"
  | orderingViolation q t last =>
    let place := match q with
      | some q => " on attribute " ++ q.text
      | none => ""
    "Ordering violation" ++ place ++ ": time " ++ toString t ++ " precedes " ++ toString last
  | cancelled => "Analysis was cancelled"
  | persistence reason => "Persistence error: " ++ reason

end Failure

end StateHistory
