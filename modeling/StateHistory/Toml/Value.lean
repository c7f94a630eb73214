/-!
# TOML documents

A document is a table; a table maps names to values, among them tables again. How a table came about
decides what can be added to it later.
-/

namespace StateHistory

/-- How a table came about. -/
inductive Toml.Origin where
  /-- By a header of its own; also the document itself. -/
  | header
  /-- By a header of a table inside it. -/
  | passing
  /-- By a key with dots. -/
  | dotted
  /-- As a value in braces, which is complete. -/
  | value
deriving DecidableEq, Repr

/-- A value in a document. Numbers that are not whole, and dates, are not told apart further. -/
inductive Toml where
  | string (text : String)
  | integer (value : Int)
  | boolean (value : Bool)
  | float
  | date
  | array (items : List Toml)
  | table (origin : Toml.Origin) (members : List (String × Toml))
  /-- Tables under headers of the same name in double brackets. -/
  | tables (items : List (List (String × Toml)))
deriving Repr, Inhabited

namespace Toml

abbrev Members := List (String × Toml)

def lookup (name : String) (ms : Members) : Option Toml := (ms.find? (·.1 == name)).map (·.2)

/-- Sets a member, replacing the value it had. -/
def put (name : String) (v : Toml) (ms : Members) : Members :=
  if (lookup name ms).isSome then ms.map fun m => if m.1 = name then (name, v) else m
  else ms ++ [(name, v)]

/-- Does a table exist only because another one is inside it? -/
def Origin.isImplicit : Origin → Bool
  | passing | dotted => true
  | header | value => false

/-- Changes the table at a path, whose tables are added where they are missing, with the given
origin. A path goes through the last table under headers in double brackets, and not through values.
The path of a key, unlike that of a header, does not go through tables with headers of their own. -/
def alter (added : Origin) (f : Origin → Members → Option Members) :
    List String → Origin → Members → Option Members
  | [], origin, ms => f origin ms
  | name :: path, _, ms =>
    match lookup name ms with
    | none => do
      let inner ← alter added f path added []
      return put name (.table added inner) ms
    | some (.table .value _) => none
    | some (.table origin inner) =>
      if added = .dotted ∧ ¬origin.isImplicit then none
      else do
        let inner ← alter added f path origin inner
        return put name (.table origin inner) ms
    | some (.tables items) =>
      match items.getLast? with
      | none => none
      | some last => do
        let last ← alter added f path .header last
        return put name (.tables (items.dropLast ++ [last])) ms
    | some _ => none

/-- Adds a value under a key of one or more names to a table. The last table on the way has to come
about by such keys too, unless it is the table itself. -/
def insert (key : List String) (v : Toml) (origin : Origin) (ms : Members) : Option Members :=
  match key.getLast? with
  | none => none
  | some name =>
    let path := key.dropLast
    let add (o : Origin) (ms : Members) : Option Members :=
      if (decide (o = .dotted)) = path.isEmpty || (lookup name ms).isSome then none
      else some (put name v ms)
    alter .dotted add path origin ms

/-- Opens the table of a header. It may be there already only because of tables inside it. -/
def openTable (path : List String) (root : Members) : Option Members :=
  match path.getLast? with
  | none => none
  | some name =>
    let add (_ : Origin) (ms : Members) : Option Members :=
      match lookup name ms with
      | none => some (put name (.table .header []) ms)
      | some (.table .passing inner) => some (put name (.table .header inner) ms)
      | some _ => none
    alter .passing add path.dropLast .header root

/-- Opens the next table of a header in double brackets. -/
def openNext (path : List String) (root : Members) : Option Members :=
  match path.getLast? with
  | none => none
  | some name =>
    let add (_ : Origin) (ms : Members) : Option Members :=
      match lookup name ms with
      | none => some (put name (.tables [[]]) ms)
      | some (.tables items) => some (put name (.tables (items ++ [[]])) ms)
      | some _ => none
    alter .passing add path.dropLast .header root

end Toml

end StateHistory
