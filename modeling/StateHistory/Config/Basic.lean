/-!
# Configuration

The settings of an analysis run, and which of them make sense.
-/

namespace StateHistory

/-- How an analysis is run. -/
structure Config where
  /-- How many events lie between two notifications of progress. -/
  progressInterval : Nat := 10000
  /-- How long to wait for an analysis, in milliseconds. -/
  waitTimeoutMs : Nat := 60000
  /-- The directory of saved histories; without one nothing is saved or loaded. -/
  persistDir : Option String := none
  /-- Are deferred changes past the last event applied at the end? -/
  flushAtEnd : Bool := true
deriving DecidableEq, Repr, Inhabited

/-- Why a configuration makes no sense. -/
inductive ConfigProblem where
  | noInterval
  | noDirectory
deriving DecidableEq, Repr

def ConfigProblem.message : ConfigProblem → String
  | noInterval => "progress_interval must be >= 1, got 0"
  | noDirectory => "persist_dir must not be empty"

namespace Config

/-- The first problem of a configuration. -/
def problem? (c : Config) : Option ConfigProblem :=
  if c.progressInterval = 0 then some .noInterval
  else if c.persistDir = some "" then some .noDirectory
  else none

/-- The time to wait in whole seconds. -/
def waitSeconds (c : Config) : Nat := c.waitTimeoutMs / 1000

end Config

end StateHistory
