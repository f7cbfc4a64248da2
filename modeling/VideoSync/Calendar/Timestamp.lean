import VideoSync.Calendar.Date
import VideoSync.Decimal.Text
import VideoSync.Decimal.Literal

/-
  Instants as whole seconds since 1970 in UTC, and their RFC 3339 text. `render?` writes an instant,
  `parse` reads any offset and fraction and gives the second in which the instant lies.
-/

namespace VideoSync.Calendar

/-- Seconds in a day. -/
def daySeconds : Int := 86400

/-- The years that have a text. -/
def firstYear : Int := -262143

/-- The last year that has a text. -/
def lastYear : Int := 262142

/-- A number with at least two digits. -/
def twoDigits (n : Nat) : String :=
  String.ofList (Decimal.zeros (2 - (Nat.toDigits 10 n).length)) ++ Decimal.natText n

/-- A year with at least four digits, signed outside 0 to 9999. -/
def yearText (year : Int) : String :=
  let digits := Nat.toDigits 10 year.natAbs
  let padded := String.ofList (Decimal.zeros (4 - digits.length) ++ digits)
  if year < 0 then "-" ++ padded else if 9999 < year then "+" ++ padded else padded

/-- The text of a date. -/
def Date.render (d : Date) : String :=
  yearText d.year ++ "-" ++ twoDigits d.month ++ "-" ++ twoDigits d.day

/-- The text of a second of the day. -/
def clockText (second : Nat) : String :=
  twoDigits (second / 3600) ++ ":" ++ twoDigits (second / 60 % 60) ++ ":" ++ twoDigits (second % 60)

/-- The text of an instant in UTC, within the years that have one. -/
def render? (seconds : Int) : Option String :=
  let date := Date.ofDays (seconds / daySeconds)
  if firstYear ≤ date.year ∧ date.year ≤ lastYear then
    some (date.render ++ "T" ++ clockText (seconds % daySeconds).toNat ++ "+00:00")
  else none

/-- The text of an instant, or its number of seconds where it has none. -/
def renderOrSeconds (seconds : Int) : String :=
  (render? seconds).getD (Decimal.intText seconds)

/-- Why a text is no RFC 3339 timestamp. -/
inductive TimestampError where
  | outOfRange
  | invalid
  | tooShort
  | tooLong
  deriving DecidableEq, Repr

/-- The error in words. -/
def TimestampError.message : TimestampError → String
  | .outOfRange => "input is out of range"
  | .invalid => "input contains invalid characters"
  | .tooShort => "premature end of input"
  | .tooLong => "trailing input"

/-- How many bytes a text takes in UTF-8; the shortest timestamps are measured so. -/
def byteLength (cs : List Char) : Nat := (String.ofList cs).utf8ByteSize

/-- The bytes of a timestamp up to its seconds. -/
def shortestTimestamp : Nat := 19

/-- A step that reads a value off the front of a text. -/
abbrev Reader (α : Type) := List Char → Except TimestampError (α × List Char)

/-- Reads exactly `n` digits. -/
def digits : (n : Nat) → (value : Nat) → Reader Nat
  | 0, value, cs => .ok (value, cs)
  | _ + 1, _, [] => .error .tooShort
  | n + 1, value, c :: cs =>
    if c.isDigit then digits n (10 * value + Decimal.digitValue c) cs else .error .invalid

/-- Reads one character of a class. -/
def mark (p : Char → Bool) : Reader Unit
  | [] => .error .tooShort
  | c :: cs => if p c then .ok ((), cs) else .error .invalid

/-- Reads the digits of a date, which must exist. -/
def readDate : Reader Date := fun cs => do
  let (year, cs) ← digits 4 0 cs
  let (_, cs) ← mark (· == '-') cs
  let (month, cs) ← digits 2 0 cs
  let (_, cs) ← mark (· == '-') cs
  let (day, cs) ← digits 2 0 cs
  let date : Date := ⟨year, month, day⟩
  if date.Valid then .ok (date, cs) else .error .outOfRange

/-- Skips a fraction of a second, which has at least one digit. -/
def skipFraction : List Char → Except TimestampError (List Char)
  | '.' :: [] => .error .tooShort
  | '.' :: c :: cs => if c.isDigit then .ok (cs.dropWhile Char.isDigit) else .error .invalid
  | cs => .ok cs

/-- Reads the second of the day; a leap second counts as the one before it. -/
def readClock : Reader Nat := fun cs => do
  let (hour, cs) ← digits 2 0 cs
  let (_, cs) ← mark (· == ':') cs
  let (minute, cs) ← digits 2 0 cs
  let (_, cs) ← mark (· == ':') cs
  let (second, cs) ← digits 2 0 cs
  let cs ← skipFraction cs
  let second := if second = 60 then 59 else second
  if hour < 24 ∧ minute < 60 ∧ second < 60 then .ok (hour * 3600 + minute * 60 + second, cs)
  else .error .outOfRange

/-- Reads two digits of an offset, the first at most `5` where it counts minutes. -/
def readPair (minutes : Bool) : Reader Nat := fun cs =>
  if byteLength cs < 2 then .error .tooShort
  else match cs with
    | a :: b :: rest =>
      if !a.isDigit || !b.isDigit then .error .invalid
      else if minutes && '5' < a then .error .outOfRange
      else .ok (10 * Decimal.digitValue a + Decimal.digitValue b, rest)
    | _ => .error .invalid

/-- Reads an offset from UTC in seconds. -/
def readOffset : Reader Int
  | [] => .error .tooShort
  | c :: cs =>
    if c = 'Z' ∨ c = 'z' then .ok (0, cs)
    else if c = '+' ∨ c = '-' ∨ c = '\u2212' then do
      let (hours, cs) ← readPair false cs
      let (_, cs) ← mark (· == ':') cs
      let (minutes, cs) ← readPair true cs
      let offset : Int := hours * 3600 + minutes * 60
      .ok (if c = '+' then offset else -offset, cs)
    else .error .invalid

/-- The second, counted in UTC since 1970, in which the instant of an RFC 3339 text lies. -/
def parse (text : String) : Except TimestampError Int := do
  let cs := text.toList
  if byteLength cs < shortestTimestamp then throw .tooShort
  let (date, cs) ← readDate cs
  let (_, cs) ← mark (fun c => c == 'T' || c == 't' || c == ' ') cs
  let (clock, cs) ← readClock cs
  let (offset, cs) ← readOffset cs
  if daySeconds ≤ offset ∨ offset ≤ -daySeconds then throw .outOfRange
  if !cs.isEmpty then throw .tooLong
  return date.toDays * daySeconds + clock - offset

end VideoSync.Calendar
