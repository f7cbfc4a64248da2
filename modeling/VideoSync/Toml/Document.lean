import VideoSync.Toml.Table

/-
  Documents: the tables of a text and what follows the last of them. Writing a document puts the
  tables in the order of their headers and keeps every other spelling; only carriage returns go.
-/

namespace VideoSync.Toml

/-- A document. -/
structure Document where
  entries : Entries := []
  /-- The blanks and comments at the end. -/
  trailing : String := ""
  deriving Inhabited

namespace Document

/-- The meaning of a document. -/
def toValue (d : Document) : Value := .table (Item.entriesToValues d.entries)

/-- What a document says. -/
def toDatum (d : Document) : Datum := d.toValue.toDatum

/-- Whether all numbers fit 64 bits, so that the document can be edited. -/
def editable (d : Document) : Bool := d.toValue.fits

/-- Puts an item in the place of a top-level key, or at the end. The spelling of a key stays. -/
def put (d : Document) (name : String) (item : Item) : Document :=
  { d with
    entries :=
      if (d.entries.find? name).isSome then d.entries.set name item
      else d.entries ++ [(.plain name, item)] }

/-! ## Writing -/

/-- A dotted key as it is written. -/
def keyText (path : List Key) : String :=
  match path.getLast? with
  | none => ""
  | some leaf => leaf.before ++ between path ++ leaf.after
where
  /-- The keys with their dots. -/
  between : List Key → String
    | [] => ""
    | [k] => k.written
    | k :: next :: rest =>
      k.written ++ k.dotAfter ++ "." ++ next.dotBefore ++ between (next :: rest)

mutual

/-- The lines that the values of a table take, dotted keys included. -/
def valueLines (path : List Key) : List (Key × Item) → String
  | [] => ""
  | (key, item) :: rest => itemLines (path ++ [key]) item ++ valueLines path rest

/-- The lines of one entry, none if it has a header. -/
def itemLines (path : List Key) : Item → String
  | .value before written after _ => keyText path ++ "=" ++ before ++ written ++ after ++ "\n"
  | .table head entries => if head.origin = .dotted then valueLines path entries else ""
  | .tables _ => ""

end

/-- A table ready to be written. -/
structure Block where
  place : Nat
  path : List Key
  head : Head
  /-- Whether it is a table of an array. -/
  element : Bool
  entries : Entries

mutual

/-- The tables among some entries, each after those that it is written after. The first component
is the place of the last table that has one; a table without a place takes it over. -/
def blocks (last : Nat) (path : List Key) : List (Key × Item) → Nat × List Block
  | [] => (last, [])
  | (key, item) :: rest =>
    let (last, first) := itemBlocks last (path ++ [key]) item
    let (last, others) := blocks last path rest
    (last, first ++ others)

/-- The tables that an item holds. -/
def itemBlocks (last : Nat) (path : List Key) : Item → Nat × List Block
  | .value .. => (last, [])
  | .table head entries =>
    let place := head.place.getD last
    let (last, others) := blocks place path entries
    (last, if head.origin = .dotted then others else ⟨place, path, head, false, entries⟩ :: others)
  | .tables elements => elementBlocks last path elements

/-- The tables of an array. -/
def elementBlocks (last : Nat) (path : List Key) :
    List (Head × List (Key × Item)) → Nat × List Block
  | [] => (last, [])
  | (head, entries) :: rest =>
    let place := head.place.getD last
    let (last, others) := blocks place path entries
    let (last, more) := elementBlocks last path rest
    (last, ⟨place, path, head, true, entries⟩ :: others ++ more)

end

/-- A table with its header; the parent of other tables is written only for values of its own. A
header without a text before it has an empty line there unless it comes first. -/
def Block.text (b : Block) (first : Bool) : Option String :=
  let lines := valueLines [] b.entries
  if b.head.origin = .parent ∧ lines = "" then none
  else
    let before := b.head.before.getD (if first then "" else "\n")
    let key := keyText b.path
    let header := if b.element then "[[" ++ key ++ "]]" else "[" ++ key ++ "]"
    some (before ++ header ++ b.head.after.getD "" ++ "\n" ++ lines)

/-- The tables one after the other. -/
def blocksText (first : Bool) : List Block → String
  | [] => ""
  | b :: rest =>
    match b.text first with
    | some text => text ++ blocksText false rest
    | none => blocksText first rest

/-- The text of a document. -/
def render (d : Document) : String :=
  let values := valueLines [] d.entries
  let tables := (blocks 0 [] d.entries).2.mergeSort fun a b => a.place ≤ b.place
  let text := values ++ blocksText (values == "") tables ++ d.trailing
  String.ofList (text.toList.filter (· != '\r'))

end Document
end VideoSync.Toml
