import StateHistory.StateSystem.Reader
import StateHistory.Trace.Event

/-!
# Providers

A provider turns the events of a trace into changes of a state system. It is started once, with the
state systems of the analyses it depends on, and then handles every event in order.
-/

namespace StateHistory

/-- The state systems that a provider can look at, by the analysis that built them. -/
structure Context where
  systems : List (String × StateSystem) := []
deriving Inhabited

namespace Context

/-- Adds a state system, replacing the one the name stood for. -/
def insert (c : Context) (id : String) (s : StateSystem) : Context :=
  ⟨c.systems.filter (·.1 ≠ id) ++ [(id, s)]⟩

def system? (c : Context) (id : String) : Option StateSystem :=
  (c.systems.find? (·.1 == id)).map (·.2)

def ids (c : Context) : List String := c.systems.map (·.1)

end Context

/-- What a started provider does with an event. -/
abbrev Handler := Event → StateSystem.Write Unit

/-- A way to turn events into states. The version tells its layouts apart. -/
structure Provider where
  version : UInt32
  start : Context → Except Failure Handler

namespace Provider

/-- The provider that needs no start. -/
def ofHandler (version : UInt32) (handler : Handler) : Provider := ⟨version, fun _ => .ok handler⟩

end Provider

/-- A provider that has a handler for each of several event names. -/
structure Dispatch where
  version : UInt32
  handlers : List (String × Handler) := []

namespace Dispatch

/-- Sets the handler of an event name. -/
def on (d : Dispatch) (name : String) (handler : Handler) : Dispatch :=
  { d with handlers := (name, handler) :: d.handlers.filter (·.1 ≠ name) }

def handles (d : Dispatch) (name : String) : Bool := d.handlers.any (·.1 == name)

/-- Handles an event by its name; others are ignored. -/
def handle (d : Dispatch) : Handler := fun e =>
  match d.handlers.find? (·.1 == e.name) with
  | some (_, handler) => handler e
  | none => pure ()

def toProvider (d : Dispatch) : Provider := .ofHandler d.version d.handle

end Dispatch

end StateHistory
