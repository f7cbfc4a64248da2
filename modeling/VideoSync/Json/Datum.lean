import VideoSync.Json.Syntax
import VideoSync.Codec.Datum
import VideoSync.Decimal.Literal

/-
  JSON as a document format. Whole numbers of 64 bits are integers and all others are doubles; a
  negative zero is a double too.
-/

namespace VideoSync.Json

/-- In JSON a list is never longer than its record, unused fields are not looked at, and null is the
content of a choice that has none. -/
def dialect : Dialect where
  extraItems := false
  unreadableIgnored := true
  isNothing
    | .null => true
    | _ => false

/-- What a number says as it is written; one that overflows says nothing. -/
def numberDatum (written : String) : Datum :=
  let (negative, body) := Decimal.takeSign written.toList
  let magnitude := Decimal.natOfDigits 10 body
  if body.all Char.isDigit ∧ !negative ∧ magnitude < Width.capacity 64 then .integer magnitude
  else if body.all Char.isDigit ∧ negative ∧ 0 < magnitude ∧
      magnitude ≤ Width.capacity 63 then
    .integer (-(magnitude : Int))
  else match Decimal.unsigned? body with
    | some d =>
      let x := Decimal.nearest negative d
      if x.isFinite then .real x else .unreadable
    | none => .unreadable

mutual

/-- What a value says. -/
def toDatum : Json → Datum
  | .null => .null
  | .bool b => .bool b
  | .number written => numberDatum written
  | .string written => match unescape [] written.toList with
    | some text => .text (String.ofList text)
    | none => .unreadable
  | .array items => .list (itemsToData items)
  | .object fields => match fieldsToData fields with
    | some entries => .fields entries
    | none => .unreadable

/-- What the items of an array say. -/
def itemsToData : List Json → List Datum
  | [] => []
  | item :: rest => toDatum item :: itemsToData rest

/-- What the fields of an object say, if all names can be read. -/
def fieldsToData : List (String × Json) → Option (List (String × Datum))
  | [] => some []
  | (name, item) :: rest => do
    let name ← unescape [] name.toList
    return (String.ofList name, toDatum item) :: (← fieldsToData rest)

end

/-- The value that a text says. -/
def readDatum? (text : String) : Option Datum := (parse? text).map toDatum

end VideoSync.Json
