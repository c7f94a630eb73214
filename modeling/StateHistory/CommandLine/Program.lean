import StateHistory.Analysis.Session
import StateHistory.CommandLine.Report
import StateHistory.Config.Reader
import StateHistory.Trace.Lines

/-!
# The program

One use of the program: it reads its configuration, runs one analysis on a file of events and
reports on the state system. Files are those of a folder, and the folder is handed on with the saved
history.
-/

namespace StateHistory.CommandLine

/-- Why a use of the program fails. -/
inductive Mishap where
  | configUnread (path : String)
  | configMalformed
  | configInvalid (problem : ConfigProblem)
  | eventsUnopened (path : String)
  | analysisFailed (reason : String)
  | analysisUnfinished (outcome : Outcome)
  | query (failure : QueryFailure)
deriving DecidableEq, Repr

def Mishap.message : Mishap → String
  | configUnread path => "Failed to read " ++ path
  | configMalformed => "Failed to parse TOML"
  | configInvalid problem => "Invalid configuration: " ++ problem.message
  | eventsUnopened path => "Failed to open event file " ++ path
  | analysisFailed reason => "Analysis failed: " ++ reason
  | analysisUnfinished outcome => "Analysis did not complete: " ++ outcome.text
  | query failure => failure.message

/-- The text of a file. -/
def readText (folder : Folder) (path : String) : Option String :=
  (folder.read path).bind fun bytes => String.fromUTF8? ⟨bytes.toArray⟩

namespace Invocation

/-- The configuration, which has to make sense. -/
def readConfig (i : Invocation) (folder : Folder) : Except Mishap Config := do
  let config ← match i.config with
    | none => pure {}
    | some path =>
      match readText folder path with
      | none => throw (.configUnread path)
      | some text =>
        match Config.parse? text with
        | none => throw .configMalformed
        | some config => pure config
  match config.problem? with
  | some problem => throw (.configInvalid problem)
  | none => return config

/-- The events. A directory can be opened, but not read. -/
def openEvents (i : Invocation) (folder : Folder) : Except Mishap Source :=
  match folder.read i.events with
  | some bytes => .ok (.ofLines i.events bytes)
  | none =>
    if folder.isDirectory i.events then .ok ⟨[.failure (.unreadable i.events)]⟩
    else .error (.eventsUnopened i.events)

/-- The analysis, before its run. -/
def analysis (i : Invocation) (config : Config) (source : Source) : Analysis where
  id := i.provider.name
  provider := i.provider.provider
  source
  config

/-- The state system of a run, if it has completed. -/
def finished (a : Analysis) : Except Mishap StateSystem :=
  match a.outcome, a.system with
  | .completed, some s => .ok s
  | .failed reason, _ => .error (.analysisFailed reason)
  | outcome, _ => .error (.analysisUnfinished outcome)

/-- The report that was asked for, and the files afterwards. -/
def run (i : Invocation) (folder : Folder) : Except Mishap String × Folder :=
  let prepared : Except Mishap Analysis := do
    let config ← i.readConfig folder
    return i.analysis config (← i.openEvents folder)
  match prepared with
  | .error e => (.error e, folder)
  | .ok a =>
    let (a, folder) := Session.runAlone (a.schedule.toOption.getD a) folder
    let result := do
      match report (← finished a) i.format i.query with
      | .ok text => return text
      | .error e => throw (.query e)
    (result, folder)

/-- The paths that a use of the program looks at, once its configuration is known. -/
def inputs (i : Invocation) (config : Config) : List String :=
  match config.persistDir.map (Archive.pathOf · i.provider.name) with
  | some path => [i.events, path, Archive.draftOf path]
  | none => [i.events]

end Invocation

/-- What one use of the program shows: how it ended, what it wrote, and why it failed. -/
structure Exit where
  code : UInt32
  output : String := ""
  failure : Option String := none
deriving DecidableEq, Repr

/-- The name and the version of the program. -/
def versionText : String := "tracestate 0.3.0"

/-- How the program is used. -/
def usageText : String := written [
  "Build and query interval state histories from trace events",
  "",
  "Usage: tracestate [OPTIONS] <EVENTS> <COMMAND>",
  "",
  "Commands:",
  "  full-state  Value of every attribute at one time",
  "  single      Interval of one attribute covering a time",
  "  range       Every interval of one attribute within [start, end]",
  "  tree        Attribute paths",
  "  summary     Bounds, status and size of the state system",
  "  help        Print this message or the help of the given subcommand(s)"]

/-- Uses the program with some arguments in a folder. -/
def use (args : List String) (folder : Folder) : Exit × Folder :=
  match parse args with
  | .error .help => (⟨0, usageText, none⟩, folder)
  | .error .version => (⟨0, versionText ++ "\n", none⟩, folder)
  | .error .usage => (⟨2, "", none⟩, folder)
  | .ok i =>
    match i.run folder with
    | (.ok output, folder) => (⟨0, output, none⟩, folder)
    | (.error e, folder) => (⟨1, "", some e.message⟩, folder)

end StateHistory.CommandLine
