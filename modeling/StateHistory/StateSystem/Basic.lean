import StateHistory.Deferred
import StateHistory.Store.Image
import StateHistory.Store.Query
import StateHistory.Store.Queue

/-!
# State systems

A state system is a store under construction by a single writer while any number of readers look at
it. Construction ends once, in one way, and that never changes again. Anyone can give up the data:
from then on every access to the store fails.
-/

namespace StateHistory

/-- How far construction has come. -/
inductive Status where
  | building
  | built
  | cancelled
  | failed (reason : String)
deriving DecidableEq, Repr, Inhabited

namespace Status

/-- Has construction stopped? -/
def isFinished : Status → Bool
  | building => false
  | _ => true

def text : Status → String
  | building => "building"
  | built => "built"
  | cancelled => "cancelled"
  | failed reason => "failed: " ++ reason

end Status

/-- A store, the state of its construction, and the changes its writer has deferred. -/
structure StateSystem where
  id : String
  store : Store
  status : Status
  /-- How far recording has come, as last made known to those who wait for it. -/
  published : Option Time
  disposed : Bool
  deferred : Deferred
deriving DecidableEq, Repr

namespace StateSystem

/-- A state system with nothing recorded yet. -/
def new (id : String) : StateSystem := ⟨id, .new, .building, none, false, {}⟩

instance : Inhabited StateSystem := ⟨new ""⟩

/-- The finished state system with the data of an image. -/
def ofImage (id : String) (image : Image) : Except Failure StateSystem := do
  let store ← Store.ofImage image
  return ⟨id, store, .built, store.stop, false, {}⟩

/-- The store, unless it was given up. -/
def live (s : StateSystem) : Except Failure Store :=
  if s.disposed then .error (.disposed s.id) else .ok s.store

/-- Gives up the data. -/
def dispose (s : StateSystem) : StateSystem :=
  if s.disposed then s else { s with disposed := true, store := .new }

/-- Ends construction; the first end stands. -/
def finish (s : StateSystem) (status : Status) : StateSystem :=
  { s with
    status := if s.status.isFinished then s.status else status
    published := s.store.stop }

end StateSystem

end StateHistory
