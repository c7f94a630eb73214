import StateHistory.Time

/-!
# Notifications

What the listeners of an analysis are told: that it has started, how far it has come, and how it has
ended. The end is told once and last.
-/

namespace StateHistory

/-- A message about the analysis `id`. -/
inductive Notification where
  | started (id : String)
  /-- A number of events is handled, the last of them with the given time. -/
  | progress (id : String) (events : Nat) (time : Time)
  | completed (id : String) (events : Nat)
  | cancelled (id : String)
  | failed (id : String) (reason : String)
deriving DecidableEq, Repr, Inhabited

namespace Notification

def id : Notification → String
  | started id | progress id .. | completed id _ | cancelled id | failed id _ => id

/-- Is this the last message about a run? -/
def isTerminal : Notification → Bool
  | started _ | progress .. => false
  | completed .. | cancelled _ | failed .. => true

def text : Notification → String
  | started id => id ++ ": started"
  | progress id events time => id ++ ": " ++ toString events ++ " events, t=" ++ toString time
  | completed id events => id ++ ": completed after " ++ toString events ++ " events"
  | cancelled id => id ++ ": cancelled"
  | failed id reason => id ++ ": failed: " ++ reason

end Notification

/-- One who is told about an analysis, and who may call it off on hearing something. -/
structure Listener where
  callsOff : Notification → Bool := fun _ => false
  /-- What was heard so far; nothing once the listener has gone away. -/
  inbox : Option (List Notification) := some []
deriving Inhabited

namespace Listener

/-- Hears a message, unless gone away. -/
def hear (n : Notification) (l : Listener) : Listener :=
  { l with inbox := l.inbox.map (· ++ [n]) }

/-- Tells all listeners. -/
def tell (n : Notification) (ls : List Listener) : List Listener := ls.map (·.hear n)

end Listener

end StateHistory
