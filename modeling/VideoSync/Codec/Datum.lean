import VideoSync.Width

/-
  Values as they stand in a document, whatever its format, and how records, options and choices are
  read from them. Formats differ in a few points, which a dialect states.
-/

namespace VideoSync

/-- A value in a document. -/
inductive Datum where
  | null
  | bool (b : Bool)
  | integer (n : Int)
  | real (x : Float)
  | text (s : String)
  | list (items : List Datum)
  | fields (entries : List (String × Datum))
  /-- A value of the right form that says nothing, such as a number out of all range. -/
  | unreadable
  deriving Inhabited

namespace Datum

mutual

/-- Whether nothing in a value is unreadable. -/
def isReadable : Datum → Bool
  | unreadable => false
  | list items => areReadable items
  | fields entries => entriesReadable entries
  | _ => true

/-- Whether nothing in any of the values is unreadable. -/
def areReadable : List Datum → Bool
  | [] => true
  | d :: rest => d.isReadable && areReadable rest

/-- Whether nothing in any of the fields is unreadable. -/
def entriesReadable : List (String × Datum) → Bool
  | [] => true
  | (_, d) :: rest => d.isReadable && entriesReadable rest

end

end Datum

/-- The points in which document formats differ. -/
structure Dialect where
  /-- Whether a list that stands for a record may hold more than the record. -/
  extraItems : Bool
  /-- Whether fields that nobody asks for may be unreadable. -/
  unreadableIgnored : Bool
  /-- What stands for the missing content of a choice that is written as a field. -/
  isNothing : Datum → Bool

/-- The fields of a record: those named, in order, each with its value where it has one. -/
structure Fields where
  values : List (Option Datum)
  /-- Whether they were given by name, and not in a list by their order. -/
  named : Bool

namespace Datum

/-- The value of a field, which may be given once. -/
def single? (entries : List (String × Datum)) (name : String) : Option (Option Datum) :=
  match entries.filter (·.1 == name) with
  | [] => some none
  | [(_, d)] => some (some d)
  | _ => none

/-- The fields of a record with the given names. -/
def record? (dialect : Dialect) (names : List String) : Datum → Option Fields
  | fields entries =>
    let others := entries.filter fun (name, _) => !names.contains name
    if dialect.unreadableIgnored || entriesReadable others then
      (names.mapM (single? entries)).map (⟨·, true⟩)
    else none
  | list items =>
    if dialect.extraItems || items.length ≤ names.length then
      some ⟨(List.range names.length).map (items[·]?), false⟩
    else none
  | _ => none

/-- A choice among names: the name itself, or a single field of that name with nothing in it. -/
def choice? {α : Type} (dialect : Dialect) (all : List α) (name : α → String) : Datum → Option α
  | text s => all.find? (name · == s)
  | fields [(s, content)] =>
    if dialect.isNothing content then all.find? (name · == s) else none
  | _ => none

/-- A truth value. -/
def bool? : Datum → Option Bool
  | bool b => some b
  | _ => none

/-- An integer of 64 bits with a sign. -/
def int64? : Datum → Option Int
  | integer n => if Width.signed 64 n then some n else none
  | _ => none

/-- An integer of 64 bits without a sign. -/
def uint64? : Datum → Option UInt64
  | integer n => if Width.unsigned 64 n then some (UInt64.ofNat n.toNat) else none
  | _ => none

/-- A number as a double; integers of 64 bits are numbers too. -/
def double? : Datum → Option Float
  | real x => some x
  | integer n => if Width.signed 64 n || Width.unsigned 64 n then some (Float.ofInt n) else none
  | _ => none

end Datum

namespace Fields

/-- The value of a field at its place. -/
def at? (f : Fields) (i : Nat) : Option Datum := (f.values[i]?).join

/-- A field that has to be there. -/
def required {α : Type} (f : Fields) (i : Nat) (read : Datum → Option α) : Option α :=
  (f.at? i).bind read

/-- A field with a default. -/
def orDefault {α : Type} (f : Fields) (i : Nat) (fallback : α) (read : Datum → Option α) :
    Option α :=
  match f.at? i with
  | none => some fallback
  | some d => read d

/-- A field that may be absent or null; a list has to be long enough to have it. -/
def optional {α : Type} (f : Fields) (i : Nat) (read : Datum → Option α) : Option (Option α) :=
  match f.at? i with
  | none => if f.named then some none else none
  | some .null => some none
  | some d => (read d).map some

end Fields
end VideoSync
