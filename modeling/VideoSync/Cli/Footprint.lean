import VideoSync.Cli.Arguments
import VideoSync.Storage.Disk

/-
  What a run can touch. `places` gives every location that the paths of a request lead through, and
  `changes` what has to be done to a tree so that it becomes another one.
-/

namespace VideoSync.Cli

open VideoSync.Storage (Disk Entry Location Path.isAbsolute Path.steps Path.up Tree)

/-- The paths that a request names or writes. -/
def Request.paths : Request → List String
  | .run config _ command => config :: Disk.temporaryPath config :: match command with
    | .probe file _ _ => [file]
    | .config => []
  | .version => []
  | .help => []

/-- The locations that some steps lead through. -/
def trail : Location → List (List Char) → List Location
  | _, [] => []
  | place, s :: rest =>
    let next := if s = Path.up then place.dropLast else place ++ [String.ofList s]
    next :: trail next rest

/-- The locations that a path leads through. -/
def pathTrail (cwd : Location) (path : String) : List Location :=
  trail (if Path.isAbsolute path then [] else cwd) (Path.steps path)

/-- The locations that a run can look at or change, for a program that is asked for something. -/
def places (cwd : Location) (args : List String) : List Location :=
  match parse args with
  | .error _ => []
  | .ok request => (request.paths.flatMap (pathTrail cwd)).eraseDups

/-- A change of a file tree. -/
inductive Change where
  | makeDirectory (place : Location)
  | write (place : Location) (bytes : Bytes)
  | remove (place : Location)

/-- What makes one tree into another: new entries in their order, then what is gone. -/
def changes (before after : Tree) : List Change :=
  let news := after.entries.filter fun (place, entry) => before.find? place != some entry
  let gone := before.entries.filter fun (place, _) => (after.find? place).isNone
  news.map (fun
    | (place, .directory) => .makeDirectory place
    | (place, .file bytes) => .write place bytes) ++ gone.map fun (place, _) => .remove place

end VideoSync.Cli
