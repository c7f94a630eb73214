import StateHistory.Provider.Basic

/-!
# Counters

Named counters that events set to a value or increment. An event without a usable name does nothing.
-/

namespace StateHistory.Counter

def path (name : String) : List String := ["Counters", name]

/-- Sets a counter to the value of the event. -/
def assign (name : String) : Handler := fun e => do
  let q ← StateSystem.addPath (path name)
  StateSystem.edit (Store.write e.timestamp (e.fieldValue "value") q)

/-- Adds the delta of the event to a counter; without one, adds 1. -/
def increment (name : String) : Handler := fun e => do
  let q ← StateSystem.addPath (path name)
  StateSystem.edit (Store.addLong e.timestamp q (.ofInt ((e.fieldLong "delta").getD 1)))

def handle : Handler := fun e =>
  match e.fieldSegment "name", e.name with
  | some name, "counter" => assign name e
  | some name, "increment" => increment name e
  | _, _ => pure ()

def provider : Provider := .ofHandler 1 handle

end StateHistory.Counter
