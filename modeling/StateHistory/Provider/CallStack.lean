import StateHistory.Provider.Basic

/-!
# Call stacks

Entries and exits of functions, as one stack for each thread of each process. An entry that tells
its end has its exit deferred to that time. A process or thread that an event does not tell is `0`.
-/

namespace StateHistory.CallStack

def segmentOr (default : String) (e : Event) (field : String) : String :=
  (e.fieldSegment field).getD default

/-- The path of the stack that an event works on. -/
def path (e : Event) : List String :=
  ["Processes", segmentOr "0" e "pid", segmentOr "0" e "tid", "CallStack"]

/-- Puts the function on its stack, and defers its exit if the end is known. -/
def enter : Handler := fun e => do
  let stack ← StateSystem.addPath (path e)
  StateSystem.edit (Store.push e.timestamp (e.fieldValue "function") stack)
  match e.fieldLong "end" with
  | some stop => StateSystem.schedule ⟨stop, stack, .null, .pop⟩
  | none => pure ()

/-- Takes a function off its stack. -/
def leave : Handler := fun e => do
  let stack ← StateSystem.addPath (path e)
  discard (StateSystem.edit (Store.pop e.timestamp stack))

def handle : Handler := fun e =>
  match e.name with
  | "entry" => enter e
  | "exit" => leave e
  | _ => pure ()

def provider : Provider := .ofHandler 1 handle

end StateHistory.CallStack
