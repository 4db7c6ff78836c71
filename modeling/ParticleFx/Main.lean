import ParticleFx.CommandLine
import ParticleFx.Picture

namespace ParticleFx

-- The outer layer: what the disk holds where the command looks, the command itself, and what it
-- leaves on the disk.

def canOpen (path : String) : IO Bool := do
  try
    let _ ← IO.FS.Handle.mk path .read
    return true
  catch _ => return false

def entryOnDisk (place : Place) : IO (Option Entry) := do
  let path := Place.path place
  if ← canOpen (path ++ "/.") then return some .directory
  else
    try
      return some (.text (← IO.FS.readFile path))
    catch _ => return if ← canOpen path then some (.text "") else none

-- Takes in every place on the way to a path.
def takeIn (w : Workspace) (path : String) : IO Workspace := do
  let (start, names) := Workspace.setOut (Workspace.parts path)
  let mut w := w
  let mut place := start
  for name in names do
    if name = ".." then place := Workspace.up place
    else if name ≠ "" ∧ name ≠ "." then place := place ++ [name]
    if let some e ← entryOnDisk place then w := w.put place e
  return w

def inputs : CommandLine.Command → List String
  | .frame input _ output => [input, output]
  | .render input output _ => [input, output]

def snapshot (args : List String) : IO Workspace :=
  match CommandLine.parse args with
  | some (.command c) => (inputs c).foldlM takeIn {}
  | _ => return {}

def writeOut (before after : Workspace) : IO Unit := do
  for (path, e) in after.entries.reverse do
    if before.entries.lookup path ≠ some e then
      match e with
      | .directory => IO.FS.createDirAll path
      | .text content => IO.FS.writeFile path content
      | .image f => IO.FS.writeBinFile path (ByteArray.mk (Picture.png f).toArray)

end ParticleFx

open ParticleFx
def main (args : List String) : IO UInt32 := do
  let workspace ← snapshot args
  let out := CommandLine.run args { workspace, program := { available := false } }
  writeOut workspace out.studio.workspace
  (← IO.getStdout).putStr out.stdout
  (← IO.getStderr).putStr out.stderr
  return out.code.toUInt32
