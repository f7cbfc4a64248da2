import VideoSync.Toml.Value
import VideoSync.Calendar.Date

/-
  TOML values that are neither strings nor collections: truth values, numbers, dates and times. A
  reader gets the whole word and either understands all of it or nothing.
-/

namespace VideoSync.Toml

/-- Removes the underscores from digits; each has to stand between two digits. -/
def plainDigits? (isDigit : Char → Bool) : List Char → Option (List Char)
  | [] => none
  | [c] => if isDigit c then some [c] else none
  | c :: '_' :: rest =>
    if isDigit c then (plainDigits? isDigit rest).map (c :: ·) else none
  | c :: rest => if isDigit c then (plainDigits? isDigit rest).map (c :: ·) else none

/-- Digits of a decimal number, which start with zero only when they are zero. -/
def decimalDigits? (cs : List Char) : Option (List Char) :=
  match plainDigits? Char.isDigit cs with
  | some ['0'] => some ['0']
  | some ('0' :: _) => none
  | digits => digits

/-- Whether a character is a digit in a base. -/
def isDigitIn (base : Nat) (c : Char) : Bool := decide (Decimal.digitValue c < base)

/-- An integer, decimal with an optional sign or in another base with its mark. -/
def integer? : List Char → Option Int
  | '0' :: 'x' :: rest => inBase 16 rest
  | '0' :: 'o' :: rest => inBase 8 rest
  | '0' :: 'b' :: rest => inBase 2 rest
  | cs =>
    let (negative, body) := Decimal.takeSign cs
    (decimalDigits? body).map fun digits =>
      let n : Int := Decimal.natOfDigits 10 digits
      if negative then -n else n
where
  /-- Digits after the mark of a base. -/
  inBase (base : Nat) (cs : List Char) : Option Int :=
    (plainDigits? (isDigitIn base) cs).map fun digits => (Decimal.natOfDigits base digits : Int)

/-- A float: a decimal integer with a fraction, an exponent or both. -/
def decimalFloat? (cs : List Char) : Option Value := do
  let (negative, body) := Decimal.takeSign cs
  let isMark := fun c => c == 'e' || c == 'E'
  let mantissa := body.takeWhile fun c => !isMark c
  let whole ← decimalDigits? (mantissa.takeWhile (· != '.'))
  let fraction ← match mantissa.dropWhile (· != '.') with
    | [] => some []
    | _ :: digits => plainDigits? Char.isDigit digits
  let exponent ← match body.dropWhile fun c => !isMark c with
    | [] => some 0
    | _ :: rest =>
      let (negative, digits) := Decimal.takeSign rest
      (plainDigits? Char.isDigit digits).map fun digits =>
        let n : Int := Decimal.natOfDigits 10 digits
        if negative then -n else n
  let x := Decimal.nearest negative (Decimal.scientific whole fraction exponent)
  return if x.isFinite then .float x else .overflow

/-- Infinity or NaN with an optional sign. -/
def specialFloat? (cs : List Char) : Option Value :=
  let (negative, body) := Decimal.takeSign cs
  if body = "inf".toList then some (.float (if negative then -(1.0 / 0.0) else 1.0 / 0.0))
  else if body = "nan".toList then some (.float (0.0 / 0.0))
  else none

/-! ## Dates and times -/

/-- Exactly `n` digits and the text after them. -/
def digits? (n : Nat) (cs : List Char) : Option (Nat × List Char) :=
  let digits := cs.take n
  if digits.length = n ∧ digits.all Char.isDigit then
    some (Decimal.natOfDigits 10 digits, cs.drop n)
  else none

/-- A fixed character and the text after it. -/
def expect? (c : Char) : List Char → Option (List Char)
  | d :: rest => if d = c then some rest else none
  | [] => none

/-- A date that exists. -/
def date? (cs : List Char) : Option (List Char) := do
  let (year, cs) ← digits? 4 cs
  let cs ← expect? '-' cs
  let (month, cs) ← digits? 2 cs
  let cs ← expect? '-' cs
  let (day, cs) ← digits? 2 cs
  let date : Calendar.Date := ⟨year, month, day⟩
  if date.Valid then some cs else none

/-- A fraction of a second, if there is one. -/
def fraction? : List Char → Option (List Char)
  | '.' :: c :: rest => if c.isDigit then some (rest.dropWhile Char.isDigit) else none
  | '.' :: [] => none
  | cs => some cs

/-- A time of day, seconds being optional. -/
def time? (cs : List Char) : Option (List Char) := do
  let (hour, cs) ← digits? 2 cs
  let cs ← expect? ':' cs
  let (minute, cs) ← digits? 2 cs
  if 24 ≤ hour ∨ 60 ≤ minute then none
  else match cs with
    | ':' :: cs => do
      let (second, cs) ← digits? 2 cs
      if 60 < second then none else fraction? cs
    | cs => some cs

/-- An offset from UTC. -/
def offset? : List Char → Option (List Char)
  | c :: cs =>
    if c = 'Z' ∨ c = 'z' then some cs
    else if c = '+' ∨ c = '-' then do
      let (hour, cs) ← digits? 2 cs
      let cs ← expect? ':' cs
      let (minute, cs) ← digits? 2 cs
      if 24 ≤ hour ∨ 60 ≤ minute then none else some cs
    else none
  | [] => none

/-- Whether a word is a date, a time or both, with an offset only after both. -/
def isDatetime (cs : List Char) : Bool :=
  match date? cs with
  | some [] => true
  | some (c :: rest) =>
    (c == 'T' || c == 't' || c == ' ') &&
      match time? rest with
      | some [] => true
      | some rest => offset? rest == some []
      | none => false
  | none => time? cs == some []

/-- The value that a word writes. -/
def scalar? (cs : List Char) : Option Value :=
  if cs = "true".toList then some (.boolean true)
  else if cs = "false".toList then some (.boolean false)
  else match integer? cs with
    | some n => some (.integer n)
    | none =>
      (specialFloat? cs).orElse fun _ =>
        if isDatetime cs then some (.datetime (String.ofList cs)) else decimalFloat? cs

end VideoSync.Toml
