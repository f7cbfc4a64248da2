import VideoSync.Width

/-
  A double taken apart into whole numbers. Every exact decimal rule of this library is stated on
  these parts.
-/

namespace VideoSync.Decimal

/-- A finite double: `mantissa * 2 ^ exponent`, negated where `negative` holds. -/
structure Parts where
  negative : Bool
  mantissa : Nat
  exponent : Int
  deriving DecidableEq, Repr

/-- The least exponent, shared by the subnormal numbers. -/
def leastExponent : Int := -1074

/-- Whether the sign bit is set; zero has a sign of its own. -/
def signBit (x : Float) : Bool := x.toBits.toNat / Width.capacity 63 == 1

/-- The parts of a double; infinities and NaN have none. -/
def parts? (x : Float) : Option Parts :=
  let bits : Nat := x.toBits.toNat
  let biased : Nat := bits / Width.capacity 52 % Width.capacity 11
  let fraction : Nat := bits % Width.capacity 52
  if biased = 2047 then none
  else if biased = 0 then some ⟨signBit x, fraction, leastExponent⟩
  else some ⟨signBit x, Width.capacity 52 + fraction, (biased : Int) - 1075⟩

/-- The whole factors of a power with any exponent: `base ^ e` is the first over the second. -/
def power (base : Nat) (e : Int) : Nat × Nat :=
  (Nat.pow base e.toNat, Nat.pow base (-e).toNat)

end VideoSync.Decimal
