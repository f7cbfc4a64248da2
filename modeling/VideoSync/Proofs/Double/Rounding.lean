import Mathlib.Algebra.Order.Field.Power
import Mathlib.Algebra.Order.Field.Rat
import Mathlib.Tactic.Positivity
import Mathlib.Tactic.Ring

/-
  Rounding that changes nothing. A finite binary64 number is a mantissa of at most 53 bits and an
  exponent, and these are unique when the mantissa has all 53 bits or the exponent is the least one
  (`Canonical`). However the value of a canonical number is written as a mantissa and an exponent,
  rounding finds the canonical ones: `round_of_value`.
-/

namespace VideoSync.Double

open Float.Model (Format UnpackedFloat totalExponent)
open Float.Model.UnpackedFloat

/-- The mantissa and the exponent of a finite binary64 number as they are stored. -/
structure Canonical (mantissa : ℕ) (exponent : ℤ) : Prop where
  pos : 0 < mantissa
  width : mantissa < 2 ^ 53
  low : -1074 ≤ exponent
  high : exponent ≤ 971
  full : 2 ^ 52 ≤ mantissa ∨ exponent = -1074

theorem targetExponent_eq (total : ℤ) :
    Format.binary64.targetExponent total = max (total - 53) (-1074) := rfl

theorem totalExponent_shift {m : ℕ} (hm : 0 < m) (e : ℤ) (k : ℕ) :
    totalExponent (m * 2 ^ k) (e - k) = totalExponent m e := by
  have hlog : (m * 2 ^ k).log2 = m.log2 + k := by
    obtain ⟨hlower, hupper⟩ := (Nat.log2_eq_iff hm.ne').mp rfl
    refine (Nat.log2_eq_iff (by positivity)).mpr ⟨?_, ?_⟩
    · rw [pow_add]
      exact Nat.mul_le_mul_right _ hlower
    · rw [add_right_comm, pow_add]
      exact Nat.mul_lt_mul_of_pos_right hupper (by positivity)
  unfold totalExponent
  rw [hlog]
  push_cast
  ring

variable {m : ℕ} {e : ℤ} {s : Sign}

/-- Rounding aims at the exponent that is there. -/
theorem Canonical.targetExponent_eq (h : Canonical m e) :
    Format.binary64.targetExponent (totalExponent m e) = e := by
  rw [Double.targetExponent_eq]
  unfold totalExponent
  have hupper : m.log2 < 53 := (Nat.log2_lt h.pos.ne').mpr h.width
  have hlow := h.low
  rcases h.full with hfull | hleast
  · have hlower : 52 ≤ m.log2 := (Nat.le_log2 h.pos.ne').mpr hfull
    omega
  · omega

/-- Shifting out zeros leaves nothing over. -/
theorem shiftRight_eq (m k : ℕ) :
    (⟨m * 2 ^ k, false, false⟩ : ExtendedMantissa) >>> k = ⟨m, false, false⟩ := by
  change Nat.repeat ExtendedMantissa.shiftRightOne k _ = _
  induction k generalizing m with
  | zero => rw [pow_zero, mul_one]; rfl
  | succ k ih =>
    have hstep : m * 2 ^ (k + 1) = (m * 2) * 2 ^ k := by ring
    rw [Nat.repeat, hstep, ih]
    simp [ExtendedMantissa.shiftRightOne]

/-- Zeros at the end of a canonical mantissa are shifted out. -/
theorem Canonical.shiftToTargetExponent_eq (h : Canonical m e) (k : ℕ) :
    shiftToTargetExponent .binary64 (m * 2 ^ k) (e - k) .exact = (⟨m, false, false⟩, e) := by
  unfold shiftToTargetExponent shiftToExponent
  rw [totalExponent_shift h.pos, h.targetExponent_eq]
  have hshift : (e - (e - k)).toNat = k := by omega
  dsimp only
  rw [hshift, ExtendedMantissa.ofMantissaAndAccuracy, shiftRight_eq, sub_add_cancel]

theorem Canonical.roundWithAccuracy_eq (h : Canonical m e) (k : ℕ) :
    roundWithAccuracy .binary64 s (m * 2 ^ k) (e - k) .exact = .finite s m e h.pos := by
  have hagain := h.shiftToTargetExponent_eq 0
  rw [pow_zero, mul_one, Nat.cast_zero, sub_zero] at hagain
  unfold roundWithAccuracy
  rw [h.shiftToTargetExponent_eq k]
  dsimp only [ExtendedMantissa.roundedMantissa, ExtendedMantissa.accuracy,
    Accuracy.roundToNearestEven]
  rw [hagain]
  exact dif_neg h.pos.ne'

/-- Two ways to write one value differ in a shift. -/
theorem shift_of_value {m m' : ℕ} {e e' : ℤ} (h : (m' : ℚ) * 2 ^ e' = m * 2 ^ e) :
    (∃ k : ℕ, e' = e - k ∧ m' = m * 2 ^ k) ∨ ∃ k : ℕ, e' = e + k ∧ m = m' * 2 ^ k := by
  have hsplit {m m' : ℕ} {e : ℤ} {k : ℕ} (h : (m' : ℚ) * 2 ^ (e - k) = m * 2 ^ e) :
      m' = m * 2 ^ k := by
    have hpow : (2 : ℚ) ^ e = 2 ^ k * 2 ^ (e - k) := by
      rw [← zpow_natCast, ← zpow_add₀ two_ne_zero]
      ring_nf
    rw [hpow, ← mul_assoc] at h
    exact_mod_cast mul_right_cancel₀ (zpow_ne_zero _ two_ne_zero) h
  rcases le_total e' e with hle | hle
  · obtain ⟨k, hk⟩ := Int.le.dest hle
    obtain rfl : e' = e - k := by omega
    exact .inl ⟨k, rfl, hsplit h⟩
  · obtain ⟨k, hk⟩ := Int.le.dest hle
    obtain rfl : e = e' - k := by omega
    exact .inr ⟨k, by omega, hsplit h.symm⟩

/-- Rounding finds the canonical form of a value that has one. -/
theorem Canonical.round_of_value (h : Canonical m e) {m' : ℕ} {e' : ℤ}
    (hvalue : (m' : ℚ) * 2 ^ e' = m * 2 ^ e) :
    UnpackedFloat.round .binary64 s m' e' = .finite s m e h.pos := by
  unfold UnpackedFloat.round decreaseExponent
  rcases shift_of_value hvalue with ⟨k, rfl, rfl⟩ | ⟨k, rfl, rfl⟩
  · -- the mantissa is too long and ends in zeros, which are shifted out
    have hshift : (e - k - e).toNat = 0 := by omega
    rw [totalExponent_shift h.pos, h.targetExponent_eq]
    dsimp only
    rw [hshift, Nat.shiftLeft_zero, Nat.cast_zero, sub_zero]
    exact h.roundWithAccuracy_eq k
  · -- the mantissa is too short and is filled up with zeros
    have htotal := totalExponent_shift (Nat.pos_of_mul_pos_right h.pos) (e + k) k
    have hshift : (e + k - e).toNat = k := by omega
    have hround := h.roundWithAccuracy_eq (s := s) 0
    rw [add_sub_cancel_right] at htotal
    rw [pow_zero, mul_one, Nat.cast_zero, sub_zero] at hround
    rw [← htotal, h.targetExponent_eq]
    dsimp only
    rw [hshift, Nat.shiftLeft_eq, add_sub_cancel_right]
    exact hround

/-! ## Signed mantissas -/

theorem normalize_apply (s : Sign) {m : ℕ} (hm : 0 < m) (e : ℤ) (zeroSign : Sign) :
    UnpackedFloat.normalize .binary64 (s.apply m) e zeroSign =
      UnpackedFloat.round .binary64 s m e := by
  unfold UnpackedFloat.normalize
  cases s with
  | positive =>
    have hpos : (0 : ℤ) < m := by omega
    rw [Sign.apply, Int.compare_eq_gt.mpr hpos, Int.toNat_natCast]
  | negative =>
    have hneg : -(m : ℤ) < 0 := by omega
    rw [Sign.apply, Int.compare_eq_lt.mpr hneg, neg_neg, Int.toNat_natCast]

/-- A signed mantissa that writes a value has the sign of the value. -/
theorem exists_apply {n : ℤ} {e' : ℤ} (hm : 0 < m)
    (hvalue : (n : ℚ) * 2 ^ e' = (s.apply m : ℤ) * 2 ^ e) :
    ∃ m' : ℕ, 0 < m' ∧ n = s.apply m' ∧ (m' : ℚ) * 2 ^ e' = m * 2 ^ e := by
  have hnat {n : ℤ} (hvalue : (n : ℚ) * 2 ^ e' = m * 2 ^ e) :
      ∃ m' : ℕ, 0 < m' ∧ n = m' := by
    have hpos : (0 : ℚ) < n * 2 ^ e' := by
      rw [hvalue]
      positivity
    have hn : 0 < n := Int.cast_pos.mp ((mul_pos_iff_of_pos_right (by positivity)).mp hpos)
    exact ⟨n.toNat, by omega, by omega⟩
  cases s with
  | positive =>
    obtain ⟨m', hm', rfl⟩ := hnat hvalue
    exact ⟨m', hm', rfl, hvalue⟩
  | negative =>
    have hneg : ((-n : ℤ) : ℚ) * 2 ^ e' = m * 2 ^ e := by
      rw [Int.cast_neg, neg_mul, hvalue]
      simp [Sign.apply]
    obtain ⟨m', hm', hn⟩ := hnat hneg
    rw [hn] at hneg
    exact ⟨m', hm', by rw [← neg_neg n, hn]; rfl, hneg⟩

/-- Normalizing a signed mantissa finds the canonical form of a value that has one. -/
theorem Canonical.normalize_of_value (h : Canonical m e) {n : ℤ} {e' : ℤ} (zeroSign : Sign)
    (hvalue : (n : ℚ) * 2 ^ e' = (s.apply m : ℤ) * 2 ^ e) :
    UnpackedFloat.normalize .binary64 n e' zeroSign = .finite s m e h.pos := by
  obtain ⟨m', hm', rfl, hmagnitude⟩ := exists_apply h.pos hvalue
  rw [normalize_apply s hm', h.round_of_value hmagnitude]

end VideoSync.Double
