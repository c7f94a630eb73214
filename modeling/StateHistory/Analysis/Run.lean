import StateHistory.Analysis.Basic
import StateHistory.Archive.File
import StateHistory.Archive.Folder

/-!
# Running an analysis

A run goes by steps: it starts, waits for its dependencies one after the other, loads a saved
history or starts its provider, handles the events one by one, and ends. It completes when the
source has nothing more to give, after it has closed its state system just after the last recorded
time. A failure of the source, of the order of events, or a fatal one of the provider ends it too;
other failures of the provider only skip an event.
-/

namespace StateHistory.Analysis

/-- The end of a run that was called off. -/
def endCancelled (a : Analysis) : Analysis :=
  notify (.cancelled a.id) { a with
    outcome := .cancelled
    phase := .over
    system := a.system.map (·.finish .cancelled) }

/-- The end of a run that cannot go on. -/
def endFailed (reason : String) (a : Analysis) : Analysis :=
  notify (.failed a.id reason) { a with
    outcome := .failed reason
    phase := .over
    system := a.system.map (·.finish (.failed reason)) }

/-- The end of a run that has done its work. -/
def endCompleted (events : Nat) (a : Analysis) : Analysis :=
  notify (.completed a.id events) { a with outcome := .completed, phase := .over }

/-- The file of the saved history. -/
def historyPath (a : Analysis) : Option String := a.config.persistDir.map (Archive.pathOf · a.id)

/-- The state system of the saved history, if there is one that can be used. -/
def loadHistory (folder : Folder) (a : Analysis) : Option StateSystem := do
  let path ← a.historyPath
  (Archive.load path a.provider.version (folder.read path)).toOption

/-- The files after the history was saved where it should be. -/
def saveHistory (a : Analysis) (system : StateSystem) (folder : Folder) : Folder :=
  match a.historyPath, Archive.save a.provider.version system with
  | some path, .ok bytes => folder.replace (Archive.draftOf path) path bytes
  | _, _ => folder

/-- Waits for the first of some dependencies, if it has not ended yet. -/
def await (see : String → Option Analysis) (d : String) (rest : List String) (context : Context)
    (a : Analysis) : Option Analysis :=
  if a.cancelRequested then some a.endCancelled
  else
    match see d with
    | none => none
    | some other =>
      match other.outcome, other.system with
      | .completed, some system =>
        some { a with phase := .awaiting rest (context.insert d system) }
      | .completed, none =>
        some (a.endFailed ("prerequisite '" ++ d ++ "' has no state system"))
      | outcome, _ =>
        if outcome.isTerminal then
          some (a.endFailed ("prerequisite '" ++ d ++ "' " ++ outcome.text))
        else none

/-- Loads a saved history, which ends the run, or starts the provider on a new state system. -/
def opened (folder : Folder) (context : Context) (a : Analysis) : Analysis :=
  match a.loadHistory folder with
  | some system => { a with system := some system }.endCompleted 0
  | none =>
    let a := { a with system := some (.new a.id) }
    match a.provider.start context with
    | .ok handle => { a with phase := .building handle 0 none }
    | .error e => a.endFailed e.message

/-- Closes the state system just after the last recorded time, once the deferred changes are applied
or dropped. -/
def closing (flushAtEnd : Bool) : StateSystem.Write Unit := do
  if flushAtEnd then
    let _ ← StateSystem.flush Time.latest
  let stop ← StateSystem.Write.ask (StateSystem.query fun s => .ok s.stop)
  StateSystem.close (stop.elim 0 Time.after)

/-- The end of the events. -/
def concluded (processed : Nat) (system : StateSystem) (folder : Folder) (a : Analysis) :
    Analysis × Folder :=
  match closing a.config.flushAtEnd system with
  | .ok () system =>
    ({ a with system := some system }.endCompleted processed, a.saveHistory system folder)
  | .error e system => ({ a with system := some system }.endFailed e.message, folder)

/-- Moves recording to the time of an event and hands it to the provider. Failures that are not
fatal are passed over. -/
def record (handle : Handler) (e : Event) : StateSystem.Write Unit := fun s =>
  match StateSystem.advanceTo e.timestamp s with
  | .error f s => .error f s
  | .ok () s =>
    match handle e s with
    | .ok () s => .ok () s
    | .error f s => if f.isFatal then .error f s else .ok () s

/-- Tells the listeners after every so many events. -/
def reportProgress (processed : Nat) (time : Time) (a : Analysis) : Analysis :=
  if processed % max a.config.progressInterval 1 = 0 then
    a.notify (.progress a.id processed time)
  else a

/-- Handles one event after `processed` others. -/
def handleEvent (handle : Handler) (processed : Nat) (last : Option Time) (e : Event)
    (system : StateSystem) (a : Analysis) : Analysis :=
  match last.filter (e.timestamp < ·) with
  | some last => a.endFailed (Failure.orderingViolation none e.timestamp last).message
  | none =>
    match record handle e system with
    | .error f system => { a with system := some system }.endFailed f.message
    | .ok () system =>
      reportProgress (processed + 1) e.timestamp { a with
        system := some system
        phase := .building handle (processed + 1) (some e.timestamp) }

/-- Asks the source once and handles what it gives. -/
def build (handle : Handler) (processed : Nat) (last : Option Time) (folder : Folder)
    (a : Analysis) : Analysis × Folder :=
  if a.cancelRequested then (a.endCancelled, folder)
  else
    let system := a.system.getD (.new a.id)
    let (read, source) := a.source.next
    let a := { a with source }
    match read with
    | .failure f => (a.endFailed f.report, folder)
    | .nothing => a.concluded processed system folder
    | .event e => (a.handleEvent handle processed last e system, folder)

/-- The next step of a run, if there is one: `see` looks up other analyses. -/
def step (see : String → Option Analysis) (folder : Folder) (a : Analysis) :
    Option (Analysis × Folder) :=
  match a.phase with
  | .idle | .over => none
  | .starting =>
    some ({ a with phase := .awaiting a.dependencies {} }.notify (.started a.id), folder)
  | .awaiting (d :: rest) context => (a.await see d rest context).map (·, folder)
  | .awaiting [] context => some (a.opened folder context, folder)
  | .building handle processed last => some (a.build handle processed last folder)

/-- Gives up waiting for a dependency, if the run is doing that. -/
def expire (a : Analysis) : Option Analysis :=
  match a.phase with
  | .awaiting (d :: _) _ =>
    some (if a.cancelRequested then a.endCancelled
      else a.endFailed ("timed out waiting for prerequisite '" ++ d ++ "'"))
  | _ => none

/-- Is the run about to ask its source for the first time? -/
def isUnread (a : Analysis) : Bool :=
  match a.phase with
  | .building _ 0 _ => !a.cancelRequested
  | _ => false

/-- A bound on the number of steps that a run has left. -/
def stepsLeft (a : Analysis) : Nat :=
  match a.phase with
  | .idle | .over => 0
  | .starting => a.dependencies.length + a.source.reads.length + 3
  | .awaiting pending _ => pending.length + a.source.reads.length + 2
  | .building .. => a.source.reads.length + 1

end StateHistory.Analysis
