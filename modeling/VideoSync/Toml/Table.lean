import VideoSync.Toml.Value

/-
  The tables of a document with everything that its text has besides their meaning: how keys are
  spelled, the blanks and comments around them, and the order of headers. A table comes about by a
  header, as the parent of one, or by dotted keys, and these ways exclude each other.
-/

namespace VideoSync.Toml

/-- A key as it is written. Alone or last in a dotted key it carries the text around the whole key,
before that the text around itself. -/
structure Key where
  name : String
  written : String
  before : String := ""
  after : String := ""
  dotBefore : String := ""
  dotAfter : String := ""
  deriving DecidableEq, Repr

/-- A key in its plainest form. -/
def Key.plain (name : String) : Key := { name, written := name }

/-- How a table comes about. -/
inductive Origin where
  /-- By a header of its own. -/
  | header
  /-- As the parent of a table with a header. -/
  | parent
  /-- By dotted keys. -/
  | dotted
  deriving DecidableEq, Repr

/-- What is known of a table besides its entries. A header that was not read from a text has no
place and no text around it. -/
structure Head where
  origin : Origin := .header
  place : Option Nat := none
  before : Option String := none
  after : Option String := none
  deriving DecidableEq, Repr

/-- What a key stands for. -/
inductive Item where
  /-- A value as it is written, with the blanks and the comment around it. -/
  | value (before written after : String) (v : Value)
  | table (head : Head) (entries : List (Key × Item))
  /-- The tables of an array, each with a header of its own. -/
  | tables (elements : List (Head × List (Key × Item)))
  deriving Inhabited

/-- The entries of a table in order. -/
abbrev Entries := List (Key × Item)

namespace Item

mutual

/-- The meaning of an item. -/
def toValue : Item → Value
  | value _ _ _ v => v
  | table _ entries => .table (entriesToValues entries)
  | tables elements => .array (elementsToValues elements)

/-- The meaning of the entries of a table. -/
def entriesToValues : List (Key × Item) → List (String × Value)
  | [] => []
  | (key, item) :: rest => (key.name, item.toValue) :: entriesToValues rest

/-- The meaning of the tables of an array. -/
def elementsToValues : List (Head × List (Key × Item)) → List Value
  | [] => []
  | (_, entries) :: rest => .table (entriesToValues entries) :: elementsToValues rest

end

end Item

namespace Entries

/-- The item of a key. -/
def find? (entries : Entries) (name : String) : Option Item :=
  (List.find? (fun e : Key × Item => e.1.name == name) entries).map (·.2)

/-- Puts another item in the place of a key's item. -/
def set (entries : Entries) (name : String) (item : Item) : Entries :=
  entries.map fun e => if e.1.name = name then (e.1, item) else e

/-- Takes a key out. -/
def erase (entries : Entries) (name : String) : Entries :=
  entries.filter fun e => e.1.name != name

/-- Changes the entries of the last table of an array. -/
def inLast (f : Entries → Option Entries) :
    List (Head × Entries) → Option (List (Head × Entries))
  | [] => none
  | [(head, entries)] => (f entries).map fun entries => [(head, entries)]
  | e :: rest => (inLast f rest).map (e :: ·)

/-- Goes down the path of a header, where missing tables become parents, and changes the entries at
its end. Values and the tables of values are closed. -/
def descend (f : Entries → Option Entries) : (path : List Key) → Entries → Option Entries
  | [], entries => f entries
  | key :: rest, entries =>
    match find? entries key.name with
    | none => (descend f rest []).map fun sub =>
      entries ++ [(key, .table { origin := .parent } sub)]
    | some (.value ..) => none
    | some (.table head sub) => (descend f rest sub).map fun sub =>
      set entries key.name (.table head sub)
    | some (.tables elements) => (inLast (descend f rest) elements).map fun elements =>
      set entries key.name (.tables elements)

/-- Opens a table by its header. A table that so far is only a parent moves to the end; any other
is defined already. -/
def openTable (key : Key) (head : Head) (entries : Entries) : Option Entries :=
  match find? entries key.name with
  | none => some (entries ++ [(key, .table head [])])
  | some (.table { origin := .parent, .. } sub) =>
    some (erase entries key.name ++ [(key, .table head sub)])
  | some _ => none

/-- Opens the next table of an array by its header. -/
def openElement (key : Key) (head : Head) (entries : Entries) : Option Entries :=
  match find? entries key.name with
  | none => some (entries ++ [(key, .tables [(head, [])])])
  | some (.tables elements) => some (set entries key.name (.tables (elements ++ [(head, [])])))
  | some _ => none

/-- Adds a value under a simple key. -/
def add (key : Key) (item : Item) (entries : Entries) : Option Entries :=
  if (find? entries key.name).isSome then none else some (entries ++ [(key, item)])

/-- Adds a value under a dotted key to a table of the given origin. The keys before the last lead
through tables without a header of their own, and the last of these has to be made by dotted
keys. -/
def addDotted (key : Key) (item : Item) : (origin : Option Origin) → (path : List Key) → Entries →
    Option Entries
  | origin, [], entries =>
    if origin.all (· == .dotted) then add key item entries else none
  | _, first :: rest, entries =>
    match find? entries first.name with
    | none => (addDotted key item (some .dotted) rest []).map fun sub =>
      entries ++ [(first, .table { origin := .dotted } sub)]
    | some (.value ..) => none
    | some (.table head sub) =>
      if head.origin = .header then none
      else (addDotted key item (some head.origin) rest sub).map fun sub =>
        set entries first.name (.table head sub)
    | some (.tables elements) =>
      (inLast (addDotted key item (some .header) rest) elements).map fun elements =>
        set entries first.name (.tables elements)

end Entries
end VideoSync.Toml
