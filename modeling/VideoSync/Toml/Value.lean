import VideoSync.Codec.Datum
import VideoSync.Decimal.Literal

/-
  TOML values. A document may hold integers of any size; whether they fit is asked where they are
  used. `Value.fits` says that all numbers have their usual 64 bits.
-/

namespace VideoSync.Toml

/-- A TOML value. -/
inductive Value where
  | string (s : String)
  | integer (n : Int)
  | float (x : Float)
  /-- A finite number beyond the greatest double. -/
  | overflow
  | boolean (b : Bool)
  | datetime (written : String)
  | array (items : List Value)
  | table (entries : List (String × Value))
  deriving Inhabited

namespace Value

mutual

/-- Whether integers have 64 bits and floats do not overflow. -/
def fits : Value → Bool
  | integer n => Width.signed 64 n
  | overflow => false
  | array items => allFit items
  | table entries => entriesFit entries
  | _ => true

/-- Whether all items fit. -/
def allFit : List Value → Bool
  | [] => true
  | v :: rest => v.fits && allFit rest

/-- Whether the values of all entries fit. -/
def entriesFit : List (String × Value) → Bool
  | [] => true
  | (_, v) :: rest => v.fits && entriesFit rest

end

/-- Integers beyond 128 bits cannot be read at all. -/
def integerDatum (n : Int) : Datum :=
  if Width.signed 128 n || Width.unsigned 128 n then .integer n else .unreadable

mutual

/-- What a value says. A date with a time counts as a record of one field that no other record
has. -/
def toDatum : Value → Datum
  | string s => .text s
  | integer n => integerDatum n
  | float x => .real x
  | overflow => .unreadable
  | boolean b => .bool b
  | datetime written => .fields [("datetime", .text written)]
  | array items => .list (itemsToData items)
  | table entries => .fields (entriesToData entries)

/-- What the items of an array say. -/
def itemsToData : List Value → List Datum
  | [] => []
  | v :: rest => v.toDatum :: itemsToData rest

/-- What the entries of a table say. -/
def entriesToData : List (String × Value) → List (String × Datum)
  | [] => []
  | (name, v) :: rest => (name, v.toDatum) :: entriesToData rest

end

end Value

/-- In TOML a list may be longer than its record, everything has to be readable, and an empty table
or array is the content of a choice that has none. -/
def dialect : Dialect where
  extraItems := true
  unreadableIgnored := false
  isNothing
    | .fields [] => true
    | .list [] => true
    | _ => false

end VideoSync.Toml
