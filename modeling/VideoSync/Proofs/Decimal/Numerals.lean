import Mathlib.Algebra.Group.Nat.Defs
import VideoSync.Decimal.Literal
import VideoSync.Decimal.Text

/-
  Whole numbers as decimal text. A number is read back from its digits, with its sign as `int64?`
  and in a fixed number of places as dates and clocks write it (`numeral`).
-/

namespace VideoSync.Decimal

theorem digitValue_digitChar : ∀ d < 10, digitValue (Nat.digitChar d) = d := by decide

theorem isDigit_digitChar : ∀ d < 10, (Nat.digitChar d).isDigit = true := by decide

theorem natOfDigits_toDigits (n : Nat) : natOfDigits 10 (Nat.toDigits 10 n) = n := by
  have hfold (digits : List Char) (h : ∀ c ∈ digits, c.isDigit = true) (start : Nat) :
      digits.foldl (fun n c => 10 * n + digitValue c) start =
        Nat.ofDigitChars 10 digits start := by
    induction digits generalizing start with
    | nil => rfl
    | cons c rest ih =>
      obtain ⟨hc, hrest⟩ := List.forall_mem_cons.mp h
      rw [List.foldl_cons, ih hrest, Nat.ofDigitChars_cons, digitValue, if_pos hc]
  rw [natOfDigits, hfold _ fun c hc => Nat.isDigit_of_mem_toDigits (by omega) (by omega) hc]
  exact Nat.ofDigitChars_ten_toDigits

/-! ## Numbers with a sign -/

theorem takeSign_of_isDigit {cs : List Char} (h : ∀ c ∈ cs.head?, c.isDigit = true) :
    takeSign cs = (false, cs) := by
  unfold takeSign
  split
  · exact absurd (h '-' rfl) (by decide)
  · exact absurd (h '+' rfl) (by decide)
  · rfl

theorem takeSign_toDigits (n : Nat) :
    takeSign (Nat.toDigits 10 n) = (false, Nat.toDigits 10 n) :=
  takeSign_of_isDigit fun _ hc =>
    Nat.isDigit_of_mem_toDigits (by omega) (by omega) (List.mem_of_head? hc)

theorem int64?_intText {n : Int} (h : Width.signed 64 n = true) :
    int64? (intText n).toList = some n := by
  have hdigits : (Nat.toDigits 10 n.natAbs).all Char.isDigit = true :=
    List.all_eq_true.mpr fun c hc => Nat.isDigit_of_mem_toDigits (by omega) (by omega) hc
  have hsign : takeSign (intText n).toList = (decide (n < 0), Nat.toDigits 10 n.natAbs) := by
    unfold intText natText
    by_cases hn : n < 0
    · simp [hn, takeSign]
    · simp [hn, takeSign_toDigits]
  have hempty : (Nat.toDigits 10 n.natAbs).isEmpty = false :=
    List.isEmpty_eq_false_iff.mpr Nat.toDigits_ne_nil
  have hvalue : (if n < 0 then -(n.natAbs : Int) else n.natAbs) = n := by omega
  unfold int64?
  simp only [hsign, hdigits, hempty, natOfDigits_toDigits, decide_eq_true_eq, hvalue, h]
  rfl

/-- A text that starts with a digit and has another character in it is no number. -/
theorem int64?_eq_none {cs : List Char} (hfirst : ∀ c ∈ cs.head?, c.isDigit = true) {c : Char}
    (hmem : c ∈ cs) (hc : c.isDigit = false) : int64? cs = none := by
  have hall : cs.all Char.isDigit = false := List.all_eq_false.mpr ⟨c, hmem, by simp [hc]⟩
  simp [int64?, takeSign_of_isDigit hfirst, hall]

/-! ## Numbers in a fixed number of places -/

/-- The last digits of a number, so many of them. -/
def numeral : (places n : Nat) → List Char
  | 0, _ => []
  | places + 1, n => Nat.digitChar (n / 10 ^ places % 10) :: numeral places n

theorem numeral_zero (places : Nat) : numeral places 0 = zeros places := by
  induction places with
  | zero => rfl
  | succ places ih => rw [numeral, ih, Nat.zero_div]; rfl

/-- Digits on the left are those of the number without its last digit. -/
theorem numeral_succ (places n : Nat) :
    numeral (places + 1) n = numeral places (n / 10) ++ [Nat.digitChar (n % 10)] := by
  induction places with
  | zero => simp [numeral]
  | succ places ih =>
    rw [numeral, ih, numeral, List.cons_append, Nat.div_div_eq_div_mul, Nat.pow_succ']

theorem zeros_append_toDigits {places n : Nat} (h : n < 10 ^ (places + 1)) :
    zeros (places + 1 - (Nat.toDigits 10 n).length) ++ Nat.toDigits 10 n =
      numeral (places + 1) n := by
  induction places generalizing n with
  | zero =>
    rw [Nat.toDigits_of_lt_base (by omega), numeral_succ]
    simp [numeral, zeros, Nat.mod_eq_of_lt (by omega : n < 10)]
  | succ places ih =>
    rw [numeral_succ]
    by_cases hn : n < 10
    · rw [Nat.toDigits_of_lt_base hn, Nat.div_eq_of_lt hn, numeral_zero, Nat.mod_eq_of_lt hn]
      rfl
    · rw [Nat.toDigits_of_base_le (by omega) (by omega), ← ih (by omega), List.append_assoc,
        List.length_append, List.length_singleton, Nat.add_sub_add_right]

end VideoSync.Decimal
