/-
  Paths as text. A path is cut into segments at its slashes; empty segments and single dots name
  nothing. The functions here only look at the text and never at a file tree.
-/

namespace VideoSync.Storage.Path

/-- The pieces of a text between its slashes. -/
def segments : List Char → List (List Char)
  | [] => [[]]
  | c :: cs =>
    if c = '/' then [] :: segments cs
    else match segments cs with
      | [] => [[c]]
      | s :: ss => (c :: s) :: ss

/-- The text with a slash between each two segments. -/
def join : List (List Char) → List Char
  | [] => []
  | [s] => s
  | s :: ss => s ++ '/' :: join ss

/-- Whether a segment stands for no step at all. -/
def isIdle (segment : List Char) : Bool := segment == [] || segment == ['.']

/-- The segment that leads to the parent directory. -/
def up : List Char := ['.', '.']

/-- Whether a path starts at the root of the file system. -/
def isAbsolute (path : String) : Bool := path.toList.head? == some '/'

/-- Whether a path starts with the dot that names the current directory. -/
def startsHere (path : String) : Bool := (segments path.toList).head? == some ['.']

/-- The segments that name something or lead up. -/
def steps (path : String) : List (List Char) :=
  (segments path.toList).filter fun s => !isIdle s

/-- The name of the file that a path leads to, if its last step is a name. -/
def fileName? (path : String) : Option String :=
  match (steps path).getLast? with
  | some name => if name = up then none else some (String.ofList name)
  | none => none

/-- The path without its last step. -/
def parent? (path : String) : Option String :=
  let root := if isAbsolute path then [[]] else if startsHere path then [['.']] else []
  match steps path with
  | [] => if startsHere path then some "" else none
  | first :: more =>
    let kept := root ++ (first :: more).dropLast
    some (if kept = [[]] then "/" else String.ofList (join kept))

/-- A file name split at its last dot; a name that starts with its only dot has no extension. -/
def splitExtension (name : List Char) : List Char × Option (List Char) :=
  let extension := (name.reverse.takeWhile (· != '.')).reverse
  let stem := name.take (name.length - extension.length - 1)
  if extension.length = name.length ∨ stem = [] then (name, none) else (stem, some extension)

/-- The path with another extension. The old one is taken off the end first; a path that then leads
to no file gets none. -/
def withExtension (path extension : String) : String :=
  let reversed := (segments path.toList).reverse
  let trailing := reversed.takeWhile isIdle
  match reversed.dropWhile isIdle with
  | [] => path
  | name :: before =>
    if name = up then path
    else
      let (stem, old) := splitExtension name
      if old.isSome ∧ trailing = [] ∧ stem ++ ['.'] = up then
        String.ofList (join (up :: before).reverse)
      else
        String.ofList (join ((stem ++ '.' :: extension.toList) :: before).reverse)

end VideoSync.Storage.Path
