import VideoSync.Decimal.Double

/-
  The fewest digits that read back. The reals that round to `m * 2 ^ q` form an interval, closed
  exactly when `m` is even. For one digit, two digits and so on the two neighbours of the number on
  that decimal grid are tried; the first grid with a neighbour in the interval wins, of two such
  neighbours the nearer, and the upper one when both are equally near.
-/

namespace VideoSync.Decimal

/-- A decimal number `digits * 10 ^ exponent`. -/
structure Scientific where
  digits : Nat
  exponent : Int
  deriving DecidableEq, Repr

/-- The reals that round to a double, in quarters of its last bit: from `low` to `high` times
`2 ^ scale`, around `middle`. -/
structure Interval where
  low : Nat
  middle : Nat
  high : Nat
  scale : Int
  closed : Bool
  deriving DecidableEq, Repr

/-- Below a power of two the numbers lie twice as close, so the lower half is shorter there. -/
def interval (m : Nat) (q : Int) : Interval where
  low := if m = Width.capacity 52 ∧ leastExponent < q then 4 * m - 1 else 4 * m - 2
  middle := 4 * m
  high := 4 * m + 2
  scale := q - 2
  closed := m % 2 == 0

/-- `x * 2 ^ scale / 10 ^ e` as a quotient of whole numbers. -/
def quotient (x : Nat) (scale e : Int) : Nat × Nat :=
  (x * (power 2 scale).1 * (power 10 e).2, (power 2 scale).2 * (power 10 e).1)

/-- Whether `c * 10 ^ e` lies in the interval. -/
def Interval.holds (i : Interval) (c : Nat) (e : Int) : Bool :=
  let den := (quotient i.middle i.scale e).2
  let low := (quotient i.low i.scale e).1
  let high := (quotient i.high i.scale e).1
  if i.closed then decide (low ≤ c * den ∧ c * den ≤ high)
  else decide (low < c * den ∧ c * den < high)

/-- The neighbour of the middle on the grid of step `10 ^ e` that lies in the interval. -/
def Interval.pick? (i : Interval) (e : Int) : Option Scientific :=
  let (num, den) := quotient i.middle i.scale e
  let below := num / den
  let upper := den ≤ 2 * (num % den)
  match i.holds below e, i.holds (below + 1) e with
  | true, true => some ⟨if upper then below + 1 else below, e⟩
  | true, false => some ⟨below, e⟩
  | false, true => some ⟨below + 1, e⟩
  | false, false => none

/-- How many zeros follow the point of `num / den` before its first other digit. -/
def zerosAfterPoint (num den : Nat) : (fuel : Nat) → Nat
  | 0 => 0
  | fuel + 1 => if den ≤ num * 10 then 0 else zerosAfterPoint (num * 10) den fuel + 1

/-- Where the point of `num / den` stands: the least `k` with `num / den < 10 ^ k`. -/
def pointPosition (num den : Nat) : Int :=
  if den ≤ num then (Nat.toDigits 10 (num / den)).length
  else -(zerosAfterPoint num den 400 : Nat)

/-- Removes the zeros at the end. -/
def Scientific.trim (d : Scientific) : Scientific :=
  if 0 < d.digits ∧ d.digits % 10 = 0 then Scientific.trim ⟨d.digits / 10, d.exponent + 1⟩ else d
termination_by d.digits
decreasing_by omega

/-- The most digits that a double can need. -/
def mostDigits : Nat := 17

/-- The shortest decimal number that reads back as `m * 2 ^ q`, for a positive `m`. -/
def shortest (m : Nat) (q : Int) : Scientific :=
  let i := interval m q
  let (num, den) := quotient i.middle i.scale 0
  let k := pointPosition num den
  let found := (List.range mostDigits).findSome? fun n => i.pick? (k - (n + 1 : Nat))
  (found.getD ⟨m, q⟩).trim

end VideoSync.Decimal
