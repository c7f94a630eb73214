import StateHistory.CommandLine.Program

/-!
# The executable

Reads the files that the program looks at, runs it, and writes what it has added.
-/

namespace StateHistory.CommandLine

/-- Adds what was opened at a path. A directory can be opened, but not read. -/
def gatherOpened (folder : Folder) (path : String) (handle : IO.FS.Handle) : IO Folder := do
  try
    return folder.write path (← handle.readBinToEnd).data.toList
  catch _ => return (folder.makeDirectory path).2

/-- Adds what stands at a path, if it can be opened. -/
def gatherAt (folder : Folder) (path : String) : IO Folder := do
  try
    gatherOpened folder path (← IO.FS.Handle.mk path .read)
  catch _ => return folder

/-- The folder of what stands at some paths. -/
def gatherAll (paths : List String) : IO Folder := paths.foldlM gatherAt {}

/-- Makes a file or a directory at a location. -/
def makeNode (l : Location) : Folder.Node → IO Unit
  | .directory => IO.FS.createDirAll ("/".intercalate l)
  | .file bytes => do
    if 1 < l.length then IO.FS.createDirAll ("/".intercalate l.dropLast)
    IO.FS.writeBinFile ("/".intercalate l) ⟨bytes.toArray⟩

/-- Writes what is not as it was before. -/
def writeChanges (before after : Folder) : IO Unit :=
  after.nodes.forM fun (l, node) => do
    if before.node? l ≠ some node then
      try makeNode l node catch _ => pure ()

/-- The files that the program looks at. -/
def gather (args : List String) : IO Folder := do
  match parse args with
  | .error _ => return {}
  | .ok i =>
    let folder ← gatherAll i.config.toList
    match i.readConfig folder with
    | .error _ => return folder
    | .ok config => gatherAll (i.config.toList ++ i.inputs config)

end StateHistory.CommandLine

open StateHistory.CommandLine in
def main (args : List String) : IO UInt32 := do
  let folder ← gather args
  let (exit, after) := use args folder
  writeChanges folder after
  IO.print exit.output
  if let some failure := exit.failure then IO.eprintln ("Error: " ++ failure)
  if exit.code = 2 then IO.eprint usageText
  return exit.code
