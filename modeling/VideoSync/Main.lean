import VideoSync.Cli.Command
import VideoSync.Cli.Footprint

/-
  The program. It copies what a run can touch from the file system into a tree, does the run on the
  tree, and makes the same changes to the file system.
-/

namespace VideoSync.Cli

open VideoSync.Storage (Disk Entry Location Path.steps SystemFailure Tree)

/-- The absolute path to a location. -/
def absolutePath (place : Location) : String := "/" ++ "/".intercalate place

/-- What stands at a location of the file system. -/
def lookUp (place : Location) : IO (Option Entry) := do
  try
    return some (.file (← IO.FS.readBinFile (absolutePath place)).data)
  catch
    | .inappropriateType _ code _ =>
      return if code.toNat = SystemFailure.isDirectory.code then some .directory else none
    | _ => return none

/-- The part of the file system that some arguments lead to. -/
def copyTree (args : List String) : IO Tree := do
  let cwd := (Path.steps (toString (← IO.currentDir))).map String.ofList
  (places cwd args).foldlM (fun tree place => do
    if place.isPrefixOf cwd then return tree
    match ← lookUp place with
    | some entry => return tree.put place entry
    | none => return tree) { cwd }

/-- Makes a change to the file system; a file is written beside its place and then moved there. -/
def Change.make : Change → IO Unit
  | .makeDirectory place => IO.FS.createDir (absolutePath place)
  | .write place bytes => do
    let beside := Disk.temporaryPath (absolutePath place)
    IO.FS.writeBinFile beside ⟨bytes⟩
    IO.FS.rename beside (absolutePath place)
  | .remove place => do
    try IO.FS.removeFile (absolutePath place) catch _ => return

/-- A run of the program on the file system, with its output; the answer is the exit code. -/
def runHere (args : List String) : IO UInt32 := do
  let before ← copyTree args
  let result := run { tree := before } args
  (changes before result.disk.tree).forM Change.make
  IO.print result.stdout
  IO.eprint result.stderr
  return UInt32.ofNat result.code

end VideoSync.Cli

/-- The program. -/
def main (args : List String) : IO UInt32 := VideoSync.Cli.runHere args
