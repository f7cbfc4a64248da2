import VideoSync.Storage.Path
import VideoSync.Storage.Source

/-
  A tree of files and directories and the operations of a file system on it. A location is the list
  of names that leads to it from the root; paths without a leading slash start at the working
  directory.

  There are only regular files and directories: no symbolic or hard links, no permissions and no
  special files. So a path leads to one location at most, and nothing but the shape of the tree
  refuses an operation.
-/

namespace VideoSync.Storage

/-- The names from the root down. -/
abbrev Location := List String

/-- What stands at a location. -/
inductive Entry where
  | file (bytes : Bytes)
  | directory
  deriving DecidableEq

/-- Files and directories by location. The working directory and those above it are always there
and are not listed. -/
structure Tree where
  cwd : Location := []
  entries : List (Location × Entry) := []
  deriving DecidableEq

namespace Tree

/-- What stands at a location. -/
def find? (t : Tree) (place : Location) : Option Entry :=
  if place.isPrefixOf t.cwd then some .directory
  else (t.entries.find? (·.1 == place)).map (·.2)

/-- Takes an entry out. -/
def erase (t : Tree) (place : Location) : Tree :=
  { t with entries := t.entries.filter (·.1 != place) }

/-- Puts an entry at a location, in place of what is there. -/
def put (t : Tree) (place : Location) (e : Entry) : Tree :=
  { t with entries := (t.erase place).entries ++ [(place, e)] }

/-- Takes out a file, or a directory with all that is in it. -/
def removeAll (t : Tree) (place : Location) : Tree :=
  { t with entries := t.entries.filter fun e => !place.isPrefixOf e.1 }

/-! ## From a path to a location -/

/-- The last step of a path. -/
inductive LastStep where
  | name (name : String)
  | up
  | here
  deriving DecidableEq

/-- Where the last step of a path is taken. -/
structure Target where
  parent : Location
  last : LastStep
  /-- Whether the path ends in a slash, which only a directory can have. -/
  slash : Bool
  deriving DecidableEq

/-- The longest name in bytes. -/
def longestName : Nat := 255

/-- The longest path in bytes. -/
def longestPath : Nat := 4095

/-- Looks a name up in a directory. -/
def child? (t : Tree) (parent : Location) (name : String) : Except SystemFailure (Option Entry) :=
  if longestName < name.utf8ByteSize then .error .nameTooLong
  else .ok (t.find? (parent ++ [name]))

/-- Walks down the segments of a path, each of which has to be a directory. -/
def walk (t : Tree) : Location → List (List Char) → Except SystemFailure Location
  | place, [] => .ok place
  | place, s :: rest =>
    if Path.isIdle s then t.walk place rest
    else if s = Path.up then t.walk place.dropLast rest
    else match t.child? place (String.ofList s) with
      | .error e => .error e
      | .ok none => .error .noEntry
      | .ok (some (.file _)) => .error .notDirectory
      | .ok (some .directory) => t.walk (place ++ [String.ofList s]) rest

/-- Where the last step of a path is taken. -/
def target (t : Tree) (path : String) : Except Failure Target := do
  if path.toList.contains '\x00' then throw zeroByteInPath
  if path = "" then throw SystemFailure.noEntry.failure
  if longestPath < path.utf8ByteSize then throw SystemFailure.nameTooLong.failure
  let reversed := (Path.segments path.toList).reverse
  let start := if Path.isAbsolute path then [] else t.cwd
  match reversed.dropWhile (· == []) with
  | [] => return ⟨[], .here, true⟩
  | s :: before =>
    let parent ← (t.walk start before.reverse).mapError (·.failure)
    let last := if s = Path.up then .up else if s = ['.'] then .here else .name (String.ofList s)
    return ⟨parent, last, reversed.head? == some []⟩

/-- What a path leads to. -/
def resolve (t : Tree) (path : String) : Except Failure Entry := do
  let target ← t.target path
  match target.last with
  | .name name =>
    match ← (t.child? target.parent name).mapError (·.failure) with
    | none => throw SystemFailure.noEntry.failure
    | some (.file bytes) =>
      if target.slash then throw SystemFailure.notDirectory.failure else return .file bytes
    | some .directory => return .directory
  | _ => return .directory

/-- Whether a path leads to anything. -/
def exists? (t : Tree) (path : String) : Bool := (t.resolve path).toBool

/-- Whether a path leads to a directory. -/
def isDirectory (t : Tree) (path : String) : Bool :=
  match t.resolve path with
  | .ok .directory => true
  | _ => false

/-! ## Operations -/

/-- Opens a path for reading; a directory can be opened too, but not read. -/
def openSource (t : Tree) (path : String) : Except Failure Source :=
  (t.resolve path).map fun
    | .file bytes => .file bytes
    | .directory => .directory

/-- The text of a file. -/
def readText (t : Tree) (path : String) : Except Failure String :=
  match t.resolve path with
  | .error e => .error e
  | .ok .directory => .error SystemFailure.isDirectory.failure
  | .ok (.file bytes) =>
    match Text.decode? bytes.toList with
    | some text => .ok text
    | none => .error notText

/-- Creates a directory. -/
def makeDirectory (t : Tree) (path : String) : Except Failure Tree := do
  let target ← t.target path
  match target.last with
  | .name name =>
    match ← (t.child? target.parent name).mapError (·.failure) with
    | some _ => throw SystemFailure.fileExists.failure
    | none => return t.put (target.parent ++ [name]) .directory
  | _ => throw SystemFailure.fileExists.failure

/-- Where a file for writing is or will be. -/
def writable (t : Tree) (path : String) : Except Failure Location := do
  let target ← t.target path
  match target.last with
  | .name name =>
    let found ← (t.child? target.parent name).mapError (·.failure)
    if target.slash || found == some .directory then throw SystemFailure.isDirectory.failure
    return target.parent ++ [name]
  | _ => throw SystemFailure.isDirectory.failure

/-- Moves a file at a location to a path, in place of a file that is there. -/
def renameTo (t : Tree) (source : Location) (path : String) : Except Failure Tree := do
  let target ← t.target path
  match target.last with
  | .name name =>
    let found ← (t.child? target.parent name).mapError (·.failure)
    if target.slash then throw SystemFailure.notDirectory.failure
    if found == some .directory then throw SystemFailure.isDirectory.failure
    match t.find? source with
    | some entry => return (t.erase source).put (target.parent ++ [name]) entry
    | none => throw SystemFailure.noEntry.failure
  | _ => throw SystemFailure.busy.failure

/-- The path and the paths above it that a directory could have to be created for, the longest
first. -/
def ancestors (path : String) : (fuel : Nat) → List String
  | 0 => []
  | fuel + 1 =>
    match Path.parent? path with
    | none => []
    | some parent => if path = "" then [] else path :: ancestors parent fuel

/-- Goes up the given paths, the longest first, until a directory is there or can be created; gives
the paths passed over, the topmost first. -/
def climb (t : Tree) : (paths passed : List String) → Except Failure (Tree × List String)
  | [], passed => .ok (t, passed)
  | path :: above, passed =>
    match t.makeDirectory path with
    | .ok t => .ok (t, passed)
    | .error e =>
      if e.kind = .notFound then t.climb above (path :: passed)
      else if e = SystemFailure.fileExists.failure ∧ t.isDirectory path then .ok (t, passed)
      else .error e

/-- Creates each directory unless it is there; directories created before a failure stay. -/
def descend (t : Tree) : List String → Tree × Option Failure
  | [] => (t, none)
  | path :: below =>
    match t.makeDirectory path with
    | .ok t => t.descend below
    | .error e =>
      if e = SystemFailure.fileExists.failure ∧ t.isDirectory path then t.descend below
      else (t, some e)

/-- Creates a directory and those above it where they are missing. -/
def makeDirectories (t : Tree) (path : String) : Tree × Option Failure :=
  match t.climb (ancestors path (path.length + 1)) [] with
  | .error e => (t, some e)
  | .ok (t, missing) => t.descend missing

end Tree
end VideoSync.Storage
