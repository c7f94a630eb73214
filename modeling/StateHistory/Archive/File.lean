import StateHistory.Archive.Document
import StateHistory.StateSystem.Reader

/-!
# Saved histories as files

Where the history of a state system is saved, what is saved, and when a saved history can be used
again: its header has to carry the marks of this format and the version of the provider that would
write it now.
-/

namespace StateHistory

/-- A path followed from `dir`: an absolute path stands for itself. -/
def joinPaths (dir path : String) : String :=
  if path.startsWith "/" || dir.isEmpty then path
  else if dir.endsWith "/" then dir ++ path
  else dir ++ "/" ++ path

namespace Archive

/-- The first bytes of a header: `TSHT`. -/
def magic : List UInt8 := [0x54, 0x53, 0x48, 0x54]

/-- The version of the layout of documents. -/
def formatVersion : UInt32 := 1

/-- The file of the history `id` in the directory `dir`. -/
def pathOf (dir id : String) : String := joinPaths dir (id ++ ".ht")

/-- The file that a history is written to before it takes the place of the one at `path`: the
extension is replaced by a longer one. A name that begins with its only dot has no extension. The
name of a dot and an extension leaves two dots, which lead to the directory around and take none. -/
def draftOf (path : String) : String :=
  match (path.splitToList (· == '/')).getLastD "" with
  | ".ht" => path ++ ".ht.tmp"
  | "..ht" => String.ofList (path.toList.take (path.length - 2))
  | _ => path ++ ".tmp"

/-- The document that a finished state system is saved as. -/
def document (providerVersion : UInt32) (s : StateSystem) : Except Failure Document := do
  if !s.isBuilt then
    throw (.persistence ("state system '" ++ s.id ++ "' is " ++ s.status.text ++
      ", only built systems can be saved"))
  return ⟨⟨magic, formatVersion, providerVersion, s.id⟩, ← s.image⟩

/-- The bytes that a finished state system is saved as. -/
def save (providerVersion : UInt32) (s : StateSystem) : Except Failure (List UInt8) := do
  return encode (← document providerVersion s)

def noSuchFile : Failure := .persistence "No such file or directory (os error 2)"

/-- The document in the file at `path`, which has the given bytes if it exists. -/
def open? (path : String) (bytes : Option (List UInt8)) : Except Failure Document :=
  match bytes with
  | none => .error noSuchFile
  | some bytes =>
    match decode bytes with
    | some d => .ok d
    | none => .error (.persistence ("decode of " ++ path ++ " failed"))

def versionMismatch (what : String) (expected found : UInt32) : Failure :=
  .persistence (what ++ " version mismatch: expected " ++ toString expected.toNat ++ ", found " ++
    toString found.toNat)

/-- The state system in the file at `path`, if it was saved by the given provider version. -/
def load (path : String) (providerVersion : UInt32) (bytes : Option (List UInt8)) :
    Except Failure StateSystem := do
  let d ← open? path bytes
  if d.header.magic ≠ magic then
    throw (.persistence (path ++ " is not a state history file"))
  if d.header.formatVersion ≠ formatVersion then
    throw (versionMismatch "format" formatVersion d.header.formatVersion)
  if d.header.providerVersion ≠ providerVersion then
    throw (versionMismatch "provider" providerVersion d.header.providerVersion)
  StateSystem.ofImage d.header.ssid d.store

end Archive

end StateHistory
