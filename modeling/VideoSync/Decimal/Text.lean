import VideoSync.Decimal.Shortest

/-
  Decimal text. `plain` writes a double with the fewest digits that read back and never with an
  exponent; `fixed` writes the exact value rounded to a number of places, a half going to the even
  neighbour.
-/

namespace VideoSync.Decimal

/-- The digits of a number, without sign. -/
def natText (n : Nat) : String := String.ofList (Nat.toDigits 10 n)

/-- The digits of an integer after a minus sign where it is negative. -/
def intText (n : Int) : String :=
  if n < 0 then "-" ++ natText n.natAbs else natText n.natAbs

/-- A run of zeros. -/
def zeros (n : Nat) : List Char := List.replicate n '0'

/-- `digits * 10 ^ exponent` written out with a point where it has a fraction. -/
def Scientific.positional (d : Scientific) : String :=
  let digits := Nat.toDigits 10 d.digits
  let point : Int := digits.length + d.exponent
  String.ofList <|
    if 0 ≤ d.exponent then digits ++ zeros d.exponent.toNat
    else if 0 < point then digits.take point.toNat ++ '.' :: digits.drop point.toNat
    else '0' :: '.' :: zeros (-point).toNat ++ digits

/-- The sign of a number as text. -/
def sign (negative : Bool) : String := if negative then "-" else ""

/-- Infinities and NaN as text. -/
def specialText (x : Float) : String :=
  if x.isNaN then "NaN" else sign (signBit x) ++ "inf"

/-- The fewest digits that read back, never with an exponent, with no point on whole numbers. -/
def plain (x : Float) : String :=
  match parts? x with
  | none => specialText x
  | some p =>
    sign p.negative ++ if p.mantissa = 0 then "0" else (shortest p.mantissa p.exponent).positional

/-- `num / den` rounded to a whole number, a half going to the even one. -/
def roundHalfEven (num den : Nat) : Nat :=
  let below := num / den
  let rest := 2 * (num % den)
  if den < rest ∨ (rest = den ∧ below % 2 = 1) then below + 1 else below

/-- The exact value rounded to `places` digits after the point. -/
def fixed (places : Nat) (x : Float) : String :=
  match parts? x with
  | none => specialText x
  | some p =>
    let (num, den) := power 2 p.exponent
    let one := Nat.pow 10 places
    let units := roundHalfEven (p.mantissa * num * one) den
    let fraction := Nat.toDigits 10 (units % one)
    sign p.negative ++ natText (units / one) ++
      if places = 0 then ""
      else "." ++ String.ofList (zeros (places - fraction.length) ++ fraction)

end VideoSync.Decimal
