import StateHistory.CommandLine.Arguments
import StateHistory.CommandLine.Pattern.Reader
import StateHistory.Json.Printer
import StateHistory.StateSystem.Reader

/-!
# Reports

The answers to queries, as lines of text or as indented JSON.
-/

namespace StateHistory.CommandLine

/-- The JSON form of a value: null by its name, any other under the name of its kind. -/
def jsonOfValue : Value → Json
  | .null => .string "Null"
  | .int v => .object [("Int", .int v.toInt)]
  | .long v => .object [("Long", .int v.toInt)]
  | .double bits => .object [("Double", .double bits)]
  | .string s => .object [("String", .string s)]
  | .custom c => .object [("Custom", .object [
      ("tag", .string c.tag), ("payload", .array (c.payload.map fun b => .int b.toNat))])]

/-- An interval under the path of its attribute. -/
structure Row where
  path : String
  interval : Interval

namespace Row

def text (r : Row) : String :=
  r.path ++ " [" ++ toString r.interval.start ++ ", " ++ toString r.interval.stop ++ "] = " ++
    r.interval.value.text

def json (r : Row) : Json :=
  .object [("path", .string r.path), ("start", .int r.interval.start),
    ("end", .int r.interval.stop), ("value", jsonOfValue r.interval.value)]

end Row

/-- Bounds, state and size of a state system. -/
structure Summary where
  id : String
  status : Status
  start : Option Time
  stop : Option Time
  attributes : Nat
  intervals : Nat

namespace Summary

def jsonOfTime : Option Time → Json
  | none => .null
  | some t => .int t

def json (s : Summary) : Json :=
  .object [("id", .string s.id), ("status", .string s.status.text), ("start", jsonOfTime s.start),
    ("end", jsonOfTime s.stop), ("attributes", .int s.attributes), ("intervals", .int s.intervals)]

def lines (s : Summary) : List String :=
  let range := match s.start, s.stop with
    | some start, some stop => "[" ++ toString start ++ ", " ++ toString stop ++ "]"
    | _, _ => "(empty)"
  ["State system: " ++ s.id, "Status:       " ++ s.status.text, "Range:        " ++ range,
    "Attributes:   " ++ toString s.attributes, "Intervals:    " ++ toString s.intervals]

end Summary

/-- Lines of text, each with its newline. -/
def written (lines : List String) : String := String.join (lines.map (· ++ "\n"))

def writtenRows (format : Format) (rows : List Row) : String :=
  match format with
  | .text => written (rows.map (·.text))
  | .json => written [Json.pretty (.array (rows.map (·.json)))]

def writtenPaths (format : Format) (paths : List String) : String :=
  match format with
  | .text => written paths
  | .json => written [Json.pretty (.array (paths.map .string))]

def writtenSummary (format : Format) (s : Summary) : String :=
  match format with
  | .text => written s.lines
  | .json => written [Json.pretty s.json]

/-- Why there is no report. -/
inductive QueryFailure where
  | system (failure : Failure)
  | filter (pattern : String)
deriving DecidableEq, Repr

def QueryFailure.message : QueryFailure → String
  | system failure => failure.message
  | filter pattern => "Invalid filter regex: " ++ pattern

/-- Asks the store of a state system. -/
def ask (s : StateSystem) (f : Store → Except Failure α) : Except QueryFailure α :=
  match s.query f with
  | .ok a => .ok a
  | .error e => .error (.system e)

/-- The test of paths that a filter stands for; without one all pass. -/
def passes (filter : Option String) : Except QueryFailure (String → Bool) :=
  match filter with
  | none => .ok fun _ => true
  | some text =>
    match Pattern.parse? text with
    | some p => .ok p.finds
    | none => .error (.filter text)

def row (s : StateSystem) (iv : Interval) : Except QueryFailure Row := do
  return ⟨← ask s (·.tree.pathText iv.quark), iv⟩

/-- The attribute at a path as it is written in arguments. -/
def resolve (s : StateSystem) (path : String) : Except QueryFailure Quark :=
  match s.locate .root (splitPath path) with
  | .ok q => .ok q
  | .error e => .error (.system e)

/-- The recorded intervals of one attribute between two times. -/
def history (s : StateSystem) (q : Quark) (start stop : Time) :
    Except QueryFailure (List Interval) :=
  match s.history q start stop with
  | .ok ivs => .ok ivs
  | .error e => .error (.system e)

/-- How many intervals the attributes have between the bounds. -/
def countIntervals (s : StateSystem) (store : Store) : Except QueryFailure Nat := do
  match store.start, store.stop with
  | some start, some stop =>
    let ivs ← (List.range store.tree.size).mapM fun i => history s ⟨i⟩ start stop
    return ivs.flatten.length
  | _, _ => return 0

/-- The report of a query. -/
def report (s : StateSystem) (format : Format) : Query → Except QueryFailure String
  | .fullState time filter => do
    let passes ← passes filter
    let ivs ← ask s (Store.full time)
    let rows ← (ivs.filter (·.quark ≠ .root)).mapM (row s)
    return writtenRows format (rows.filter fun r => passes r.path)
  | .single time path => do
    let q ← resolve s path
    return writtenRows format [← row s (← ask s (Store.single time q))]
  | .range path start stop => do
    let q ← resolve s path
    return writtenRows format (← (← history s q start stop).mapM (row s))
  | .tree filter => do
    let passes ← passes filter
    let paths ← (← ask s (·.tree.below .root true)).mapM fun q => ask s (·.tree.pathText q)
    return writtenPaths format (paths.filter passes)
  | .summary => do
    let store ← ask s .ok
    return writtenSummary format ⟨s.id, s.status, store.start, store.stop, store.tree.size,
      ← countIntervals s store⟩

end StateHistory.CommandLine
