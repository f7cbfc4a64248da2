/-
  Whole numbers of a fixed width: how many there are, which integers are among them, and which of
  them an integer comes to that is not.
-/

namespace VideoSync.Width

/-- How many numbers so many bits can write. -/
def capacity (bits : Nat) : Nat := Nat.pow 2 bits

theorem capacity_succ (bits : Nat) : capacity (bits + 1) = 2 * capacity bits :=
  Nat.mul_comm (capacity bits) 2

theorem capacity_63 : capacity 63 = 9223372036854775808 := by decide

theorem capacity_64 : capacity 64 = 18446744073709551616 := by decide

/-- Whether an integer is a number of so many bits with a sign. -/
def signed (bits : Nat) (n : Int) : Bool :=
  decide (-(capacity (bits - 1) : Int) ≤ n ∧ n < capacity (bits - 1))

/-- Whether an integer is a number of so many bits without a sign. -/
def unsigned (bits : Nat) (n : Int) : Bool := decide (0 ≤ n ∧ n < capacity bits)

/-- The number of so many bits with a sign that an integer comes to: outside their range numbers
start over at the other end of it. -/
def wrapped (bits : Nat) (n : Int) : Int := n.bmod (capacity bits)

/-- An integer in the range stays as it is. -/
theorem wrapped_of_signed {bits : Nat} {n : Int} (h : signed (bits + 1) n) :
    wrapped (bits + 1) n = n := by
  obtain ⟨hleast, hgreatest⟩ :
      -(capacity bits : Int) ≤ n ∧ n < capacity bits := of_decide_eq_true h
  rw [wrapped, capacity_succ]
  exact Int.bmod_eq_of_le (by omega) (by omega)

example : wrapped 64 (-capacity 63 - 1) = capacity 63 - 1 := by decide

end VideoSync.Width
