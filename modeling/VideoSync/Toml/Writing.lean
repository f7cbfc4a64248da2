import VideoSync.Codec.Datum
import VideoSync.Decimal.Text

/-
  Data written as TOML: one line for each value, then a table for each record, with an empty line
  before every table but one that comes first.
-/

namespace VideoSync.Toml

/-- A float as TOML writes it: with a point, and the special ones in lower case. -/
def floatText (x : Float) : String :=
  if x.isNaN then "nan"
  else
    let text := Decimal.plain x
    if x.isFinite && !text.toList.contains '.' then text ++ ".0" else text

/-- A text in quotes, for texts that need no escapes. -/
def quotedText (s : String) : String := "\"" ++ s ++ "\""

/-- A value on its line; records and what TOML cannot write have none. -/
def scalarText? : Datum → Option String
  | .bool b => some (if b then "true" else "false")
  | .integer n => some (Decimal.intText n)
  | .real x => some (floatText x)
  | .text s => some (quotedText s)
  | _ => none

/-- The lines of the values among some fields. -/
def valueLines (entries : List (String × Datum)) : String :=
  entries.foldl (fun out (name, d) =>
    match scalarText? d with
    | some text => out ++ name ++ " = " ++ text ++ "\n"
    | none => out) ""

/-- The text of a record: its values, then its records as tables. -/
def recordText (entries : List (String × Datum)) : String :=
  entries.foldl (fun out (name, d) =>
    match d with
    | .fields inner =>
      out ++ (if out = "" then "" else "\n") ++ "[" ++ name ++ "]\n" ++ valueLines inner
    | _ => out) (valueLines entries)

end VideoSync.Toml
