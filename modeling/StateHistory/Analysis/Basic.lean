import StateHistory.Analysis.Notification
import StateHistory.Analysis.Outcome
import StateHistory.Config.Basic
import StateHistory.Provider.Basic
import StateHistory.Trace.Source

/-!
# Analyses

An analysis builds a state system from the events of a source, by means of a provider. It can depend
on other analyses, whose state systems its provider then gets to see. It is scheduled once. Anyone
can call it off; it notices between two events.
-/

namespace StateHistory

/-- What an analysis does next. -/
inductive Phase where
  /-- Nothing, before it is scheduled. -/
  | idle
  | starting
  /-- Waits for the first of the analyses `pending`, having got the state systems of others; when
  none is left, loads a saved history or starts its provider. -/
  | awaiting (pending : List String) (context : Context)
  /-- Handles the next event, after `processed` others, of which the last had the time `last`. -/
  | building (handle : Handler) (processed : Nat) (last : Option Time)
  /-- Nothing, after the end. -/
  | over

/-- An analysis, before, during or after its run. -/
structure Analysis where
  id : String
  provider : Provider
  source : Source
  dependencies : List String := []
  config : Config := {}
  listeners : List Listener := []
  outcome : Outcome := .pending
  cancelRequested : Bool := false
  /-- The state system, once there is one to look at. -/
  system : Option StateSystem := none
  phase : Phase := .idle

/-- Why analyses cannot be scheduled as asked. -/
inductive Refusal where
  /-- The dependencies of a single analysis cannot be waited for. -/
  | hasDependencies (id : String)
  | alreadyScheduled (id : String)
  | duplicate (id : String)
  | unknownDependency (id dependency : String)
  /-- None of these can come before the others. -/
  | cycle (ids : List String)
deriving DecidableEq, Repr, Inhabited

def Refusal.message : Refusal → String
  | hasDependencies id =>
    "analysis '" ++ id ++ "' has dependencies; schedule it through an AnalysisManager"
  | alreadyScheduled id => "analysis '" ++ id ++ "' was already scheduled"
  | duplicate id => "duplicate analysis id '" ++ id ++ "'"
  | unknownDependency id dependency =>
    "analysis '" ++ id ++ "' depends on unknown analysis '" ++ dependency ++ "'"
  | cycle ids => "dependency cycle among analyses: " ++ ", ".intercalate ids

namespace Analysis

/-- Asks the analysis to stop. -/
def cancel (a : Analysis) : Analysis := { a with cancelRequested := true }

/-- Tells all listeners; any of them can call the analysis off. -/
def notify (n : Notification) (a : Analysis) : Analysis :=
  { a with
    listeners := Listener.tell n a.listeners
    cancelRequested := a.cancelRequested || a.listeners.any (·.callsOff n) }

/-- Makes the analysis ready to run after its dependencies. -/
def scheduleAfter (a : Analysis) : Except Refusal Analysis :=
  match a.phase with
  | .idle => .ok { a with outcome := .running, phase := .starting }
  | _ => .error (.alreadyScheduled a.id)

/-- Makes an analysis without dependencies ready to run. -/
def schedule (a : Analysis) : Except Refusal Analysis :=
  if a.dependencies.isEmpty then a.scheduleAfter else .error (.hasDependencies a.id)

/-- What diagnostics show of an analysis. -/
def describe (a : Analysis) : String :=
  "AnalysisHandle \x7b id: " ++ Text.quoted a.id ++ ", outcome: " ++ a.outcome.name ++ " \x7d"

end Analysis

end StateHistory
