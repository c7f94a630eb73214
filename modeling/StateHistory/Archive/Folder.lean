/-!
# Folders

The files and directories that a program works with. A path is followed name by name: each name is
looked for in a directory that has to be there, one dot or no name at all leads nowhere else, and
two dots lead out of the directory reached. Nothing is known of what stands around a folder but that
there are directories.
-/

namespace StateHistory

/-- Where something stands: the names that lead there from the folder, each in the directory before
it. An empty name in front is the root of all directories; two dots in front lead out of the folder
once each, and stand nowhere else. -/
abbrev Location := List String

namespace Location

/-- Is this the folder itself or a directory around it? -/
def isAround (l : Location) : Bool := l.all (· == "..") || l == [""]

/-- The directory around a location. The root is its own. -/
def parent (l : Location) : Location :=
  if l = [""] then l else if l.isAround then l ++ [".."] else l.dropLast

end Location

/-- What stands at a location. -/
inductive Folder.Node where
  | file (bytes : List UInt8)
  | directory
deriving DecidableEq, Repr, Inhabited

/-- A set of files and directories. -/
structure Folder where
  nodes : List (Location × Folder.Node) := []
deriving Repr, Inhabited

namespace Folder

/-- What stands at a location, if anything does. -/
def node? (f : Folder) (l : Location) : Option Node :=
  if l.isAround then some .directory else (f.nodes.find? (·.1 == l)).map (·.2)

def remove (f : Folder) (l : Location) : Folder := ⟨f.nodes.filter (·.1 ≠ l)⟩

def put (f : Folder) (l : Location) (n : Node) : Folder := ⟨(l, n) :: (f.remove l).nodes⟩

/-! ## Paths -/

/-- How many bytes a name can have. -/
def nameLimit : Nat := 255

/-- How many bytes a path can have. -/
def pathLimit : Nat := 4095

/-- Can a text be a path? -/
def isPath (path : String) : Bool := path.utf8ByteSize ≤ pathLimit && !path.any (· == '\x00')

/-- The names of a path. -/
def names (path : String) : List String := path.splitToList (· == '/')

/-- Where a path starts: at the root or in the folder. -/
def origin (path : String) : Location := if path.startsWith "/" then [""] else []

/-- Follows one name of a path. -/
def step (f : Folder) (l : Location) (name : String) : Option Location :=
  if f.node? l ≠ some .directory || nameLimit < name.utf8ByteSize then none
  else if name = "" ∨ name = "." then some l
  else if name = ".." then some l.parent
  else some (l ++ [name])

/-- The location that a path leads to, whether anything stands there or not. -/
def locate (f : Folder) (path : String) : Option Location :=
  if path.isEmpty || !isPath path then none else (names path).foldlM f.step (origin path)

/-- The bytes of the file at a path. -/
def read (f : Folder) (path : String) : Option (List UInt8) :=
  match (f.locate path).bind f.node? with
  | some (.file bytes) => some bytes
  | _ => none

/-- Is there a directory at a path? -/
def isDirectory (f : Folder) (path : String) : Bool :=
  (f.locate path).bind f.node? == some .directory

/-! ## Changes -/

/-- Makes the directories that some names lead through where they are missing, up to the first that
cannot be made. Gives the last one if all are there in the end. -/
def makeWay : List String → Location → Folder → Option Location × Folder
  | [], l, f => (some l, f)
  | name :: names, l, f =>
    match f.step l name with
    | none => (none, f)
    | some l =>
      match f.node? l with
      | some (.file _) => (none, f)
      | some .directory => makeWay names l f
      | none => makeWay names l (f.put l .directory)

/-- Makes the directory at a path and those on the way to it. -/
def makeDirectory (f : Folder) (path : String) : Option Location × Folder :=
  if isPath path then makeWay (names path) (origin path) f else (none, f)

/-- Makes the directories on the way to a path. -/
def makeParents (f : Folder) (path : String) : Option Location × Folder :=
  let way := (names path).dropLast
  if isPath ("/".intercalate way) then makeWay way (origin path) f else (none, f)

/-- Puts a file at a path, unless the way there is missing or a directory stands there. -/
def create (f : Folder) (path : String) (bytes : List UInt8) : Option Folder := do
  let l ← f.locate path
  if f.node? l = some .directory then none else some (f.put l (.file bytes))

/-- Moves a file to another path. A file there is lost; where a directory stands, nothing moves. -/
def move (f : Folder) (source target : String) : Folder :=
  match f.read source, f.locate source, f.locate target with
  | some bytes, some old, some new =>
    if f.node? new = some .directory then f else (f.remove old).put new (.file bytes)
  | _, _, _ => f

/-- Puts a file at a path, with the directories on the way. -/
def write (f : Folder) (path : String) (bytes : List UInt8) : Folder :=
  let (_, f) := f.makeParents path
  (f.create path bytes).getD f

/-- Puts a file at a path in one move: it is written to the path `draft` beside it first. What
cannot be done is left out, with all that comes after it. -/
def replace (f : Folder) (draft path : String) (bytes : List UInt8) : Folder :=
  match f.makeParents path with
  | (none, f) => f
  | (some _, f) =>
    match f.create draft bytes with
    | none => f
    | some f => f.move draft path

end Folder

end StateHistory
