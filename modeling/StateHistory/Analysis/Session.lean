import StateHistory.Analysis.Run
import StateHistory.Analysis.Schedule

/-!
# Sessions

A session holds analyses that can depend on each other, in the order of their registration, and the
folder of their saved histories. Once all are scheduled, any of them that can take a step may take
the next one; one that waits for another may give up.
-/

namespace StateHistory

/-- A set of analyses, each with an id of its own. -/
structure Session where
  analyses : List Analysis := []
  folder : Folder := {}

namespace Session

def find? (s : Session) (id : String) : Option Analysis := s.analyses.find? (·.id == id)

/-- Registers an analysis under an id that is new. -/
def add (s : Session) (a : Analysis) : Except Refusal Session :=
  if (s.find? a.id).isSome then .error (.duplicate a.id)
  else .ok { s with analyses := s.analyses ++ [a] }

/-- The session with another state of the analysis of the same id. -/
def put (s : Session) (a : Analysis) : Session :=
  { s with analyses := s.analyses.map fun b => if b.id = a.id then a else b }

/-! ## Scheduling -/

/-- An order of the analyses that keeps their dependencies. -/
def order (s : Session) : Except Refusal (List String) :=
  Schedule.order (s.analyses.map fun a => ⟨a.id, a.dependencies⟩)

/-- Makes one analysis ready to run. -/
def schedule (id : String) : EStateM Refusal Session Unit := fun s =>
  match s.find? id with
  | none => .ok () s
  | some a =>
    match a.scheduleAfter with
    | .ok a => .ok () (s.put a)
    | .error e => .error e s

/-- Makes all analyses ready to run, in an order that keeps their dependencies; without such an
order nothing happens. -/
def scheduleAll : EStateM Refusal Session (List String) := fun s =>
  match s.order with
  | .error e => .error e s
  | .ok ids => (do ids.forM schedule; return ids : EStateM Refusal Session (List String)) s

/-! ## Running -/

/-- Asks all analyses to stop. -/
def cancelAll (s : Session) : Session := { s with analyses := s.analyses.map (·.cancel) }

/-- The session after a step of one of its analyses, if that can take one. -/
def advance (s : Session) (a : Analysis) : Option Session :=
  (a.step s.find? s.folder).map fun (a, folder) => { s.put a with folder }

/-- The session after one of its analyses gave up waiting, if that waits. -/
def giveUp (s : Session) (a : Analysis) : Option Session := a.expire.map s.put

/-- The analyses that wait for another, the least patient first. -/
def waiting (s : Session) : List Analysis :=
  (s.analyses.filter (·.expire.isSome)).mergeSort fun a b =>
    decide (a.config.waitTimeoutMs ≤ b.config.waitTimeoutMs)

/-- Lets the first analysis step that can; when none can, lets the least patient one that waits give
up. An analysis does not step while it is `held`. -/
def settleStep (held : Session → Analysis → Bool) (s : Session) : Option Session :=
  let stepped := s.analyses.findSome? fun a => if held s a then none else s.advance a
  stepped.or (s.waiting.findSome? s.giveUp)

/-- Repeats until nothing moves, at most `fuel` times. -/
def settleLoop (held : Session → Analysis → Bool) : Nat → Session → Session
  | 0, s => s
  | fuel + 1, s =>
    match settleStep held s with
    | some s => settleLoop held fuel s
    | none => s

/-- Lets all analyses run to their ends. -/
def settle (s : Session) (held : Session → Analysis → Bool) : Session :=
  settleLoop held (s.analyses.foldr (fun a n => a.stepsLeft + n) 0) s

/-- Lets one analysis run to its end that depends on no other. -/
def runAlone (a : Analysis) (folder : Folder) : Analysis × Folder :=
  let s := settle ⟨[a], folder⟩ fun _ _ => false
  ((s.find? a.id).getD a, s.folder)

/-- Where each analysis stands. -/
def outcomes (s : Session) : List (String × Outcome) := s.analyses.map fun a => (a.id, a.outcome)

end Session

end StateHistory
