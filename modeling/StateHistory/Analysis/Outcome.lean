import StateHistory.Text.Quoted

/-!
# Outcomes

Where an analysis stands. The last three outcomes are final.
-/

namespace StateHistory

/-- Where an analysis stands. -/
inductive Outcome where
  /-- Not scheduled yet. -/
  | pending
  | running
  | completed
  | cancelled
  | failed (reason : String)
deriving DecidableEq, Repr, Inhabited

namespace Outcome

/-- Has the run ended? -/
def isTerminal : Outcome → Bool
  | pending | running => false
  | completed | cancelled | failed _ => true

def text : Outcome → String
  | pending => "pending"
  | running => "running"
  | completed => "completed"
  | cancelled => "cancelled"
  | failed reason => "failed: " ++ reason

/-- The name of an outcome with its reason in quotes. -/
def name : Outcome → String
  | pending => "Pending"
  | running => "Running"
  | completed => "Completed"
  | cancelled => "Cancelled"
  | failed reason => "Failed(" ++ Text.quoted reason ++ ")"

end Outcome

end StateHistory
