import StateHistory.StateSystem.Basic

/-!
# Writing a state system

The operations of the one writer. Each runs an edit on the live store and makes known how far
recording has come, also when the edit fails. Deferred changes are applied when recording moves to
or past their time.
-/

namespace StateHistory.StateSystem

/-- An operation of the writer. -/
abbrev Write := EStateM Failure StateSystem

/-- Asks the system without changing it. -/
def Write.ask (f : StateSystem → Except Failure α) : Write α := fun s =>
  match f s with
  | .ok a => .ok a s
  | .error e => .error e s

/-- The system after an edit has left it this store. -/
def publish (s : StateSystem) (store : Store) : StateSystem :=
  { s with store, published := store.stop }

/-- Runs an edit on the live store. -/
def edit (op : Store.Edit α) : Write α := fun s =>
  match s.live with
  | .error e => .error e s
  | .ok store =>
    match op store with
    | .ok a store => .ok a (s.publish store)
    | .error e store => .error e (s.publish store)

/-- The attribute at a path from the root, created where it is missing. -/
def addPath (path : List String) : Write Quark := edit (Store.add .root path)

/-- Asks the live store. -/
def query (f : Store → Except Failure α) (s : StateSystem) : Except Failure α := do f (← s.live)

/-- Defers a change. -/
def schedule (c : Change) : Write Unit :=
  modify fun s => { s with deferred := s.deferred.schedule c }

/-- Applies a change at its own time. -/
def apply (c : Change) : Write Unit :=
  match c.kind with
  | .write => edit (Store.write c.time c.value c.quark)
  | .push => edit (Store.push c.time c.value c.quark)
  | .pop => do
    let _ ← edit (Store.pop c.time c.quark)

/-- Applies the deferred changes that are due by `t` and counts those that succeed. A change that
fails is dropped; a fatal failure ends the work. At most `fuel` changes are taken. -/
def flushLoop (t : Time) : Nat → Nat → Write Nat
  | 0, applied => pure applied
  | fuel + 1, applied => fun s =>
    match s.deferred.nextDue t with
    | none => .ok applied s
    | some (c, deferred) =>
      match apply c { s with deferred } with
      | .ok () s => flushLoop t fuel (applied + 1) s
      | .error e s => if e.isFatal then .error e s else flushLoop t fuel applied s

/-- Applies the deferred changes that are due by `t`. -/
def flush (t : Time) : Write Nat := fun s => flushLoop t s.deferred.size 0 s

/-- Moves recording to `t`, with the changes that are due by then. -/
def advanceTo (t : Time) : Write Unit := do
  let _ ← flush t
  edit (Store.advance t)

/-- Closes the store at `t` and ends construction, as built or, when closing fails, as failed.
Changes that are still deferred are lost. -/
def close (t : Time) : Write Unit := fun s =>
  match edit (Store.close t) s with
  | .ok () s => .ok () (s.finish .built)
  | .error e s => .error e (s.finish (.failed e.message))

end StateHistory.StateSystem
