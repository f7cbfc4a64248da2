import VideoSync.Decimal.Shortest

/-
  Numbers read from text: a run of digits in some base as a whole number, a decimal literal as the
  nearest double (`nearest`), and the literals that a command line takes for either kind.
-/

namespace VideoSync.Decimal

/-- The value of a digit, letters counting on from ten in either case. -/
def digitValue (c : Char) : Nat :=
  if c.isDigit then c.toNat - '0'.toNat
  else if 'a' ≤ c ∧ c ≤ 'z' then c.toNat - 'a'.toNat + 10
  else if 'A' ≤ c ∧ c ≤ 'Z' then c.toNat - 'A'.toNat + 10
  else 36

/-- The number that a run of digits writes in a base. -/
def natOfDigits (base : Nat) (digits : List Char) : Nat :=
  digits.foldl (fun n c => base * n + digitValue c) 0

/-- The digits before and after the point and the exponent as one scientific number. -/
def scientific (whole fraction : List Char) (exponent : Int) : Scientific :=
  ⟨natOfDigits 10 (whole ++ fraction), exponent - fraction.length⟩

/-- Above this power of ten every number rounds to infinity, and below its negative to zero. -/
def farPower : Int := 400

/-- The double nearest to a decimal number; too large ones become infinite. -/
def nearest (negative : Bool) (d : Scientific) : Float :=
  let size : Int := (Nat.toDigits 10 d.digits).length + d.exponent
  let magnitude : Float :=
    if d.digits = 0 ∨ size < -farPower then 0.0
    else if farPower < size then 1.0 / 0.0
    else Float.ofScientific d.digits (decide (d.exponent < 0)) d.exponent.natAbs
  if negative then -magnitude else magnitude

/-- Splits a sign off; without one a number is positive. -/
def takeSign : List Char → Bool × List Char
  | '-' :: rest => (true, rest)
  | '+' :: rest => (false, rest)
  | cs => (false, cs)

/-- A whole number with an optional sign that fits 64 bits. -/
def int64? (text : List Char) : Option Int :=
  let (negative, digits) := takeSign text
  if digits.isEmpty || !digits.all Char.isDigit then none
  else
    let n : Int := natOfDigits 10 digits
    let n := if negative then -n else n
    if Width.signed 64 n then some n else none

/-- Why a text is no decimal number. -/
inductive LiteralError where
  | empty
  | invalid
  deriving DecidableEq, Repr

/-- The error in words. -/
def LiteralError.message : LiteralError → String
  | .empty => "cannot parse float from empty string"
  | .invalid => "invalid float literal"

/-- An exponent mark with its number, or nothing at the end of the text. -/
def exponent? : List Char → Option Int
  | [] => some 0
  | c :: rest =>
    let (negative, digits) := takeSign rest
    if (c = 'e' ∨ c = 'E') ∧ !digits.isEmpty ∧ digits.all Char.isDigit then
      let n : Int := natOfDigits 10 digits
      some (if negative then -n else n)
    else none

/-- A decimal number without sign: digits with at most one point and at least one digit, then an
optional exponent. -/
def unsigned? (cs : List Char) : Option Scientific :=
  let whole := cs.takeWhile Char.isDigit
  let rest := cs.dropWhile Char.isDigit
  let (fraction, rest) :=
    match rest with
    | '.' :: rest => (rest.takeWhile Char.isDigit, rest.dropWhile Char.isDigit)
    | _ => ([], rest)
  if whole.isEmpty && fraction.isEmpty then none
  else (exponent? rest).map (scientific whole fraction)

/-- A double as a person types it: a decimal number, an infinity or NaN in any case of letters,
each with an optional sign. -/
def double (text : String) : Except LiteralError Float :=
  if text.isEmpty then .error .empty
  else
    let (negative, body) := takeSign text.toList
    match unsigned? body with
    | some d => .ok (nearest negative d)
    | none =>
      let word := String.ofList (body.map Char.toLower)
      if word = "inf" ∨ word = "infinity" then
        .ok (if negative then -(1.0 / 0.0) else 1.0 / 0.0)
      else if word = "nan" then .ok (0.0 / 0.0)
      else .error .invalid

end VideoSync.Decimal
