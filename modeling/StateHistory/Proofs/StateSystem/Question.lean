import StateHistory.Proofs.StateSystem.Reached

/-!
# What can be asked of a state system

All that anyone can ask about the data of a state system, with the answers. A question is answered
from the live store (`Question.ask_congr`), so it fails once the data was given up
(`Question.ask_of_disposed`), and two systems with the same data give the same answers.
-/

namespace StateHistory.StateSystem

/-- What can be asked about the data. -/
inductive Question where
  | start
  | stop
  | size
  | find (base : Quark) (names : List String)
  | locate (base : Quark) (names : List String)
  | select (base : Quark) (pattern : List String)
  | below (q : Quark) (recursive : Bool)
  | name (q : Quark)
  | parent (q : Quark)
  | path (q : Quark)
  | pathText (q : Quark)
  | ongoingValue (q : Quark)
  | ongoingStart (q : Quark)
  | depth (q : Quark)
  | peek (q : Quark)
  | single (t : Time) (q : Quark)
  | full (t : Time)
  | several (qs : List Quark) (ts : List Time)
  | history (q : Quark) (first last : Time)
  | histories (qs : List Quark) (a b : Time)
  | firstValue (q : Quark) (first last : Time)
  | top (t : Time) (q : Quark)
  | image
deriving DecidableEq, Repr

/-- What a question is answered with. -/
inductive Answer where
  | time (t : Option Time)
  | number (n : Int)
  | quark (q : Option Quark)
  | quarks (qs : List Quark)
  | text (text : String)
  | names (names : List String)
  | value (v : Value)
  | interval (iv : Option Interval)
  | intervals (ivs : List Interval)
  | image (i : Image)
deriving DecidableEq, Repr

/-- The answer of a system. -/
def Question.ask (s : StateSystem) : Question → Except Failure Answer
  | .start => s.query fun store => return .time store.start
  | .stop => s.query fun store => return .time store.stop
  | .size => s.query fun store => return .number store.tree.size
  | .find base names => s.query fun store => return .quark (store.tree.find? base names)
  | .locate base names => return .quark (some (← s.locate base names))
  | .select base pattern => s.query fun store => return .quarks (← store.tree.select base pattern)
  | .below q recursive => s.query fun store => return .quarks (← store.tree.below q recursive)
  | .name q => s.query fun store => return .text (← store.tree.node q).name
  | .parent q => s.query fun store => return .quark (← store.tree.node q).parent
  | .path q => s.query fun store => return .names (← store.tree.path q)
  | .pathText q => s.query fun store => return .text (← store.tree.pathText q)
  | .ongoingValue q => s.query fun store => return .value (← store.ongoingValue q)
  | .ongoingStart q => s.query fun store => return .time (← store.ongoingStart q)
  | .depth q => s.query fun store => return .number (← store.depth q)
  | .peek q => s.query fun store => return .value (← store.peek q)
  | .single t q => s.query fun store => return .interval (some (← store.single t q))
  | .full t => s.query fun store => return .intervals (← store.full t)
  | .several qs ts => s.query fun store => return .intervals (← store.query2d qs ts)
  | .history q first last => return .intervals (← s.history q first last)
  | .histories qs a b => return .intervals (← s.histories qs a b)
  | .firstValue q first last => return .interval (← s.firstValue q first last)
  | .top t q => s.query fun store => return .interval (← store.top t q)
  | .image => return .image (← s.image)

section
variable {s s' : StateSystem}

/-- Only the live store is asked. -/
theorem Question.ask_congr (h : s.live = s'.live) (question : Question) :
    question.ask s = question.ask s' := by
  cases question <;>
    simp only [ask, query, StateSystem.locate, StateSystem.history, StateSystem.histories,
      StateSystem.firstValue, StateSystem.image, h]

theorem live_of_disposed (h : s.disposed = true) : s.live = .error (.disposed s.id) := by
  simp [live, h]

theorem query_of_disposed {α : Type} (h : s.disposed = true) (f : Store → Except Failure α) :
    s.query f = .error (.disposed s.id) := by
  rw [query, live_of_disposed h]
  rfl

/-- No question is answered once the data was given up. -/
theorem Question.ask_of_disposed (h : s.disposed = true) (question : Question) :
    question.ask s = .error (.disposed s.id) := by
  have hlive := live_of_disposed h
  cases question <;>
    simp only [ask, query, StateSystem.locate, StateSystem.history, StateSystem.histories,
      StateSystem.firstValue, StateSystem.image, hlive] <;> rfl

end

end StateHistory.StateSystem
