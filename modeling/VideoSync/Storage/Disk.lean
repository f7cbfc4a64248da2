import VideoSync.Storage.Tree

/-
  Replacing a file in one step. The new content goes into a temporary file beside the old one, which
  then takes its place, so that at no moment the file is half written. The disk under a tree may
  fail while it writes or when it is told to keep what was written.
-/

namespace VideoSync.Storage

/-- A tree of files on a disk. -/
structure Disk where
  tree : Tree := {}
  /-- How many bytes are written before writing fails, and how it fails. -/
  writeFault : Option (Nat × Failure) := none
  /-- How the disk fails to keep what was written. -/
  syncFault : Option Failure := none
  deriving DecidableEq

namespace Disk

/-- The extension of temporary files. -/
def temporaryExtension : String := "toml.tmp"

/-- The temporary file for a path. -/
def temporaryPath (path : String) : String := Path.withExtension path temporaryExtension

/-- The same disk with another tree. -/
def withTree (d : Disk) (tree : Tree) : Disk := { d with tree }

/-- Writes a file from its beginning; a disk that fails keeps the part that was written. -/
def writeFile (d : Disk) (place : Location) (bytes : Bytes) : Disk × Option Failure :=
  match d.writeFault, d.syncFault with
  | some (count, e), _ => (d.withTree (d.tree.put place (.file (bytes.extract 0 count))), some e)
  | none, some e => (d.withTree (d.tree.put place (.file bytes)), some e)
  | none, none => (d.withTree (d.tree.put place (.file bytes)), none)

/-- The last steps of a replacement: the temporary file is written and takes the place of the old
one. -/
def writeAndRename (d : Disk) (path : String) (bytes : Bytes) : Disk × Option Failure :=
  match d.tree.writable (temporaryPath path) with
  | .error e => (d, some e)
  | .ok place =>
    match d.writeFile place bytes with
    | (d, some e) => (d, some e)
    | (d, none) =>
      match d.tree.renameTo place path with
      | .error e => (d, some e)
      | .ok tree => (d.withTree tree, none)

/-- Replaces the content of a file in one step, creating missing directories first. -/
def replace (d : Disk) (path : String) (bytes : Bytes) : Disk × Option Failure :=
  match Path.parent? path with
  | none => d.writeAndRename path bytes
  | some parent =>
    match d.tree.makeDirectories parent with
    | (tree, some e) => (d.withTree tree, some e)
    | (tree, none) => (d.withTree tree).writeAndRename path bytes

end Disk
end VideoSync.Storage
