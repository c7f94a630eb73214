import StateHistory.Trace.Event

/-!
# Event sources

A source hands out events one at a time. A read gives an event, or nothing, or fails; after the last
read a source gives nothing forever. So a source is the list of the reads it has left.
-/

namespace StateHistory

/-- Why a source could not hand out an event. -/
inductive ReadFailure where
  /-- A line of the input is no event; lines are counted from one. -/
  | invalidEvent (label : String) (line : Nat)
  /-- A stretch of the input is no text. -/
  | unreadable (label : String)
  /-- A failure of another kind, with its own words. -/
  | other (message : String)
deriving DecidableEq, Repr, Inhabited

def ReadFailure.message : ReadFailure → String
  | invalidEvent label line => "Invalid event at " ++ label ++ ":" ++ toString line
  | unreadable label => "Failed to read " ++ label
  | other message => message

/-- The message with what comes after it for a line or a file. That is told in the words of those
who tried to read it, which are left out. -/
def ReadFailure.report : ReadFailure → String
  | other message => message
  | f => f.message ++ ": "

/-- What asking a source for its next event can give. -/
inductive Read where
  | event (e : Event)
  | nothing
  | failure (f : ReadFailure)
deriving Repr, Inhabited

/-- A supply of events. -/
structure Source where
  reads : List Read
deriving Repr, Inhabited

namespace Source

/-- The next read and the source after it. -/
def next (s : Source) : Read × Source :=
  match s.reads with
  | r :: rest => (r, ⟨rest⟩)
  | [] => (.nothing, s)

/-- A source of events in memory. -/
def ofEvents (events : List Event) : Source := ⟨events.map .event⟩

/-- The first `n` reads. -/
def take (s : Source) : Nat → List Read
  | 0 => []
  | n + 1 => s.next.1 :: s.next.2.take n

end Source

end StateHistory
