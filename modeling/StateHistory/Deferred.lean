import StateHistory.Interval

/-!
# Deferred changes

Some events announce a change that takes effect later. Such changes wait in a queue ordered by
time, and by the order of their announcement at equal times, until recording reaches their time.
-/

namespace StateHistory

/-- What a deferred change does to its attribute. -/
inductive ChangeKind where
  /-- A new state with the carried value. -/
  | write
  /-- The carried value is put on the stack. -/
  | push
  /-- The top of the stack is taken off; the carried value is not used. -/
  | pop
deriving DecidableEq, Repr

/-- A change that takes effect at its time. -/
structure Change where
  time : Time
  quark : Quark
  value : Value
  kind : ChangeKind
deriving DecidableEq, Repr

/-- The changes that wait for their time, the next one first. -/
structure Deferred where
  changes : List Change := []
deriving DecidableEq, Repr, Inhabited

namespace Deferred

/-- Puts a change behind all those that are due no later. -/
def insert (c : Change) : List Change → List Change
  | [] => [c]
  | d :: rest => if d.time ≤ c.time then d :: insert c rest else c :: d :: rest

def schedule (d : Deferred) (c : Change) : Deferred := ⟨insert c d.changes⟩

/-- Takes the next change, whenever it is due. -/
def next (d : Deferred) : Option (Change × Deferred) :=
  match d.changes with
  | c :: rest => some (c, ⟨rest⟩)
  | [] => none

/-- Takes the next change if it is due by `t`. -/
def nextDue (d : Deferred) (t : Time) : Option (Change × Deferred) :=
  d.next.filter fun (c, _) => c.time ≤ t

def size (d : Deferred) : Nat := d.changes.length

end Deferred

end StateHistory
