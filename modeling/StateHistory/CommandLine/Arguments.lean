import StateHistory.Provider.Stock
import StateHistory.Time

/-!
# Command-line arguments

What the arguments ask for, and how they are read. They go from left to right over two levels:
first the options of the program and the file of events, then a query with options of its own. An
option is set once on its level. Its value is checked when the argument after it is looked at, so
what comes first on the line decides the answer; only the last value before the query is checked
after it.
-/

namespace StateHistory.CommandLine

/-- How results are written. -/
inductive Format where
  | text
  | json
deriving DecidableEq, Repr

def Format.name : Format → String
  | text => "text"
  | json => "json"

/-- What is asked of a finished state system. -/
inductive Query where
  /-- The values of all attributes at a time, of those whose path the filter finds. -/
  | fullState (time : Time) (filter : Option String)
  /-- The value of one attribute at a time. -/
  | single (time : Time) (path : String)
  /-- The values of one attribute between two times. -/
  | range (path : String) (start stop : Time)
  /-- The paths of the attributes, of those that the filter finds. -/
  | tree (filter : Option String)
  /-- Bounds, state and size. -/
  | summary
deriving DecidableEq, Repr

/-- One use of the program. -/
structure Invocation where
  debug : Bool
  config : Option String
  provider : Stock
  format : Format
  events : String
  query : Query
deriving DecidableEq, Repr

/-- Why there is no invocation. -/
inductive Stop where
  | help
  | version
  | usage
deriving DecidableEq, Repr

/-! ## Settings -/

/-- What an option that takes a value says, or a file that stands alone. -/
inductive Slot where
  | config
  | provider
  | format
  | events
  | time
  | path
  | filter
  | start
  | stop
deriving DecidableEq, Repr

/-- What has been said on one level. -/
structure Settings where
  debug : Bool := false
  config : Option String := none
  provider : Option Stock := none
  format : Option Format := none
  events : Option String := none
  time : Option Time := none
  path : Option String := none
  filter : Option String := none
  start : Option Time := none
  stop : Option Time := none

/-- A whole number, with a sign or without. -/
def readInteger (cs : List Char) : Option Int :=
  let (negative, ds) := match cs with
    | '-' :: cs => (true, cs)
    | '+' :: cs => (false, cs)
    | cs => (false, cs)
  if ds.isEmpty || !ds.all Char.isDigit then none
  else
    let n : Int := ds.foldl (fun n c => n * 10 + (c.toNat - '0'.toNat)) 0
    some (if negative then -n else n)

/-- A time of 64 bits. -/
def readTime (value : String) : Option Time :=
  (readInteger value.toList).filter fun t => decide t.InRange

def readFormat : String → Option Format
  | "text" => some .text
  | "json" => some .json
  | _ => none

/-- The path of a file is not empty. -/
def readFile (value : String) : Option String := if value.isEmpty then none else some value

/-- What is said for the first time. -/
def once (known : Option α) (said : Option α) : Option (Option α) :=
  match known, said with
  | none, some a => some (some a)
  | _, _ => none

/-- The settings with another one, which must not be set yet and has to make sense. -/
def Settings.set (s : Settings) (slot : Slot) (value : String) : Option Settings := do
  match slot with
  | .config => return { s with config := ← once s.config (readFile value) }
  | .provider => return { s with provider := ← once s.provider (Stock.ofName? value) }
  | .format => return { s with format := ← once s.format (readFormat value) }
  | .events => return { s with events := ← once s.events (readFile value) }
  | .time => return { s with time := ← once s.time (readTime value) }
  | .path => return { s with path := ← once s.path (some value) }
  | .filter => return { s with filter := ← once s.filter (some value) }
  | .start => return { s with start := ← once s.start (readTime value) }
  | .stop => return { s with stop := ← once s.stop (readTime value) }

/-! ## Levels -/

/-- The options that are known at one place. -/
structure Level where
  options : List (String × Slot)
  /-- Are the options of the program without a value known? -/
  isOuter : Bool := false

def formatOption : String × Slot := ("format", .format)

def outer : Level where
  options := [("config", .config), ("provider", .provider), formatOption]
  isOuter := true

/-- The name of a query in the arguments and its options. -/
def queryLevel? : String → Option Level
  | "full-state" => some ⟨[("time", .time), ("filter", .filter), formatOption], false⟩
  | "single" => some ⟨[("time", .time), ("path", .path), formatOption], false⟩
  | "range" => some ⟨[("path", .path), ("start", .start), ("end", .stop), formatOption], false⟩
  | "tree" => some ⟨[("filter", .filter), formatOption], false⟩
  | "summary" => some ⟨[formatOption], false⟩
  | _ => none

/-- The word that asks for help where a query could stand. -/
def helpWord : String := "help"

/-- Can the value of an option look like an option? -/
def Slot.allowsHyphen : Slot → Bool
  | start | stop => true
  | _ => false

/-- Where reading a level has come to. The value of `pending` is not checked yet, or is the next
argument. -/
structure State where
  settings : Settings := {}
  pending : Option (Slot × Option String) := none

namespace State

/-- Checks the pending value. -/
def settle (st : State) : Except Stop State :=
  match st.pending with
  | none => .ok st
  | some (_, none) => .error .usage
  | some (slot, some value) =>
    match st.settings.set slot value with
    | some settings => .ok ⟨settings, none⟩
    | none => .error .usage

/-- Leaves a value to be checked, or to be read. -/
def expect (st : State) (slot : Slot) (value : Option String) : Except Stop State := do
  return { ← st.settle with pending := some (slot, value) }

end State

/-- Does an argument look like an option? -/
def isOption (arg : String) : Bool := arg.startsWith "-" && arg ≠ "-"

/-- Two hyphens alone: what follows are no options. -/
def escape : String := "--"

/-- The name of an option and the value that is attached to it. -/
def splitOption (cs : List Char) : String × Option String :=
  let name := cs.takeWhile (· != '=')
  match cs.drop name.length with
  | _ :: value => (String.ofList name, some (String.ofList value))
  | [] => (String.ofList name, none)

/-- Reads an option by its name. -/
def readLong (level : Level) (st : State) (name : String) (value : Option String) :
    Except Stop State := do
  match level.options.find? (·.1 == name) with
  | some (_, slot) =>
    let st ← st.expect slot value
    if value.isSome then st.settle else return st
  | none =>
    if value.isSome then throw .usage
    let st ← st.settle
    if name = "help" then throw .help
    else if level.isOuter && name = "version" then throw .version
    else if level.isOuter && name = "debug" && !st.settings.debug then
      return { st with settings := { st.settings with debug := true } }
    else throw .usage

/-- Reads an option by its letter. -/
def readShort (level : Level) (st : State) (letter : Char) : Except Stop State := do
  if letter = 'h' then
    let _ ← st.settle
    throw .help
  else if level.isOuter && letter = 'V' then
    let _ ← st.settle
    throw .version
  else throw .usage

/-- Reads an argument that looks like an option. -/
def readOption (level : Level) (st : State) (arg : String) : Except Stop State :=
  match arg.toList with
  | '-' :: '-' :: cs => let (name, value) := splitOption cs; readLong level st name value
  | '-' :: letter :: _ => readShort level st letter
  | _ => .error .usage

/-- Takes an argument as the value of the option before it, if there is one that waits for it. -/
def takeValue (st : State) (arg : String) : Option (Except Stop State) :=
  match st.pending with
  | some (slot, none) =>
    if isOption arg && !slot.allowsHyphen then some (.error .usage)
    else some (.ok { st with pending := some (slot, some arg) })
  | _ => none

/-- The arguments of a query. -/
def readInner (level : Level) : State → List String → Except Stop Settings
  | st, [] => (·.settings) <$> st.settle
  | st, arg :: rest =>
    match takeValue st arg with
    | some (.ok st) => readInner level st rest
    | some (.error e) => .error e
    | none =>
      if arg = escape then
        if rest.isEmpty then (·.settings) <$> st.settle else .error .usage
      else if isOption arg then
        match readOption level st arg with
        | .ok st => readInner level st rest
        | .error e => .error e
      else .error .usage

/-- The query of the given name with its settings, if they are complete. -/
def Settings.query (s : Settings) (name : String) : Option Query := do
  match name with
  | "full-state" => return .fullState (← s.time) s.filter
  | "single" => return .single (← s.time) (← s.path)
  | "range" => return .range (← s.path) (← s.start) (← s.stop)
  | "tree" => return .tree s.filter
  | "summary" => return .summary
  | _ => none

/-- The invocation of settings on both levels, if they are complete. A format of the query goes
before one of the program. -/
def invocation (s : Settings) (inner : Settings) (name : String) : Option Invocation := do
  return {
    debug := s.debug
    config := s.config
    provider := s.provider.getD .callStack
    format := (inner.format.or s.format).getD .text
    events := ← s.events
    query := ← inner.query name }

/-- What may follow the word for help: nothing, or the name of one query. -/
def readHelp : List String → Stop
  | [] => .help
  | [name] => if name = helpWord || (queryLevel? name).isSome then .help else .usage
  | _ => .usage

/-- The arguments of the program. -/
def readOuter : State → List String → Except Stop Invocation
  | _, [] => .error .usage
  | st, arg :: rest =>
    match takeValue st arg with
    | some (.ok st) => readOuter st rest
    | some (.error e) => .error e
    | none =>
      if arg = helpWord then .error (readHelp rest)
      else
        match queryLevel? arg with
        | some level => do
          let inner ← readInner level {} rest
          let st ← st.settle
          match invocation st.settings inner arg with
          | some i => return i
          | none => throw .usage
        | none =>
          if arg = escape then .error .usage
          else
            let step : Except Stop State :=
              if isOption arg then readOption outer st arg
              else do
                let st ← st.settle
                if st.settings.events.isSome then throw .usage
                st.expect .events (some arg)
            match step with
            | .ok st => readOuter st rest
            | .error e => .error e

/-- What the arguments of the program ask for. -/
def parse (args : List String) : Except Stop Invocation := readOuter {} args

/-- The names on a path; empty ones say nothing. -/
def splitPath (path : String) : List String := (path.splitToList (· == '/')).filter (· ≠ "")

end StateHistory.CommandLine
