import VideoSync.Proofs.Double.Integers

/-
  Quotients of binary64 numbers, which need not be exact. Rounding finds a number for everything
  that is not too large (`exists_roundWithAccuracy`). So a natural number of at most 64 bits is
  converted to a number, and dividing one of this size by one that is at least one gives a number
  again: `exists_value?_ofNat`, `exists_value?_div`.
-/

namespace VideoSync.Double

open Float.Model (Format UnpackedFloat totalExponent)
open Float.Model.UnpackedFloat

/-! ## Rounding that may change the value -/

theorem mantissa_shiftRight (em : ExtendedMantissa) (k : ℕ) :
    (em >>> k).mantissa = em.mantissa / 2 ^ k := by
  change (Nat.repeat ExtendedMantissa.shiftRightOne k em).mantissa = _
  induction k with
  | zero => rw [pow_zero, Nat.div_one]; rfl
  | succ k ih =>
    rw [Nat.repeat, ExtendedMantissa.shiftRightOne, ih, Nat.div_div_eq_div_mul, pow_succ]

/-- Rounding adds one at most. -/
theorem roundedMantissa_bounds (em : ExtendedMantissa) :
    em.mantissa ≤ em.roundedMantissa ∧ em.roundedMantissa ≤ em.mantissa + 1 := by
  unfold ExtendedMantissa.roundedMantissa
  generalize em.accuracy = accuracy
  unfold Accuracy.roundToNearestEven
  split <;> omega

variable {m : ℕ} {e t : ℤ}

/-- The mantissa that is to be rounded has at most 53 bits, and all of them unless the exponent is
the least one. -/
theorem shiftToTargetExponent_bounds (accuracy : Accuracy)
    (ht : Format.binary64.targetExponent (totalExponent m e) = t) (h : e ≤ t) :
    ∃ em, shiftToTargetExponent .binary64 m e accuracy = (em, t) ∧
      em.mantissa < 2 ^ 53 ∧ (2 ^ 52 ≤ em.mantissa ∨ t = -1074) := by
  obtain ⟨k, hk⟩ := Int.le.dest h
  have hshift : (t - e).toNat = k := by omega
  have hmantissa : (ExtendedMantissa.ofMantissaAndAccuracy m accuracy).mantissa = m := by
    unfold ExtendedMantissa.ofMantissaAndAccuracy
    split <;> rfl
  have htarget : max (m.log2 + 1 + e - 53) (-1074) = t := ht
  refine ⟨ExtendedMantissa.ofMantissaAndAccuracy m accuracy >>> k, ?_, ?_, ?_⟩
  · unfold shiftToTargetExponent shiftToExponent
    dsimp only
    rw [ht, hshift, hk]
  · rw [mantissa_shiftRight, hmantissa, Nat.div_lt_iff_lt_mul (by positivity), ← pow_add]
    have hlog : m.log2 + 1 ≤ 53 + k := by omega
    exact Nat.lt_log2_self.trans_le (Nat.pow_le_pow_right two_pos hlog)
  · rw [mantissa_shiftRight, hmantissa, Nat.le_div_iff_mul_le (by positivity), ← pow_add]
    by_cases hleast : t = -1074
    · exact .inr hleast
    · have hlog : m.log2 = 52 + k := by omega
      have hpos : m ≠ 0 := by
        rintro rfl
        rw [Nat.log2_zero] at hlog
        omega
      rw [← hlog]
      exact .inl (Nat.log2_self_le hpos)

/-- A mantissa that was rounded is canonical, or a carry has made it one bit too long. -/
theorem exists_canonical_of_le {r : ℕ} (hpos : 0 < r) (hwidth : r ≤ 2 ^ 53) (hlow : -1074 ≤ t)
    (hhigh : t < 971) (hfull : 2 ^ 52 ≤ r ∨ t = -1074) :
    ∃ m e, ∃ k : ℕ, Canonical m e ∧ r = m * 2 ^ k ∧ t = e - k := by
  by_cases hcarry : r = 2 ^ 53
  · exact ⟨2 ^ 52, t + 1, 1, ⟨by positivity, by omega, by omega, by omega, .inl le_rfl⟩, hcarry,
      by omega⟩
  · exact ⟨r, t, 0, ⟨hpos, by omega, hlow, hhigh.le, hfull⟩, by rw [pow_zero, mul_one], by simp⟩

/-- Rounding finds a number for everything that is not too large. -/
theorem exists_roundWithAccuracy (accuracy : Accuracy) {b : ℕ} (hbound : b < 1024)
    (hexponent : e ≤ Format.binary64.targetExponent (totalExponent m e))
    (htotal : totalExponent m e ≤ b) :
    ∃ a, Denotes (roundWithAccuracy .binary64 .positive m e accuracy) a ∧ 0 ≤ a ∧ a ≤ 2 ^ b := by
  obtain ⟨t, ht⟩ : ∃ t, Format.binary64.targetExponent (totalExponent m e) = t := ⟨_, rfl⟩
  rw [ht] at hexponent
  obtain ⟨em, hshift, hwidth, hfull⟩ := shiftToTargetExponent_bounds accuracy ht hexponent
  obtain ⟨hlower, hupper⟩ := roundedMantissa_bounds em
  rw [targetExponent_eq] at ht
  unfold roundWithAccuracy
  rw [hshift]
  dsimp only
  generalize em.roundedMantissa = r at hlower hupper
  rcases Nat.eq_zero_or_pos r with rfl | hpos
  · have hzero : (shiftToTargetExponent .binary64 0 t .exact).1.mantissa = 0 := by
      unfold shiftToTargetExponent shiftToExponent
      dsimp only
      rw [mantissa_shiftRight]
      exact Nat.zero_div _
    rw [dif_pos hzero]
    exact ⟨0, denotes_zero .positive, le_rfl, by positivity⟩
  · obtain ⟨m', e', k, hc, hr, ht'⟩ :=
      exists_canonical_of_le (t := t) hpos (by omega) (by omega) (by omega) (by omega)
    have hagain : shiftToTargetExponent .binary64 r t .exact = (⟨m', false, false⟩, e') := by
      rw [hr, ht']
      exact hc.shiftToTargetExponent_eq k
    rw [hagain]
    dsimp only
    rw [dif_neg hc.pos.ne']
    refine ⟨_, hc.denotes .positive, ?_, ?_⟩
    · rw [value_positive]
      exact hc.magnitude_pos.le
    · have hwidth' : (r : ℚ) ≤ 2 ^ (53 : ℤ) := by exact_mod_cast (by omega : r ≤ 2 ^ 53)
      have hbound' : (2 : ℚ) ^ (53 + t) ≤ 2 ^ (b : ℤ) := zpow_le_zpow_right₀ one_le_two (by omega)
      calc ((Sign.positive.apply m' : ℤ) : ℚ) * 2 ^ e' = r * 2 ^ t := by
            rw [value_positive, hr, ht', Nat.cast_mul, Nat.cast_pow, Nat.cast_two, mul_assoc,
              ← zpow_natCast, ← zpow_add₀ two_ne_zero, add_sub_cancel]
        _ ≤ 2 ^ (53 : ℤ) * 2 ^ t := by gcongr
        _ = 2 ^ (53 + t) := (zpow_add₀ two_ne_zero _ _).symm
        _ ≤ 2 ^ b := by rwa [zpow_natCast] at hbound'

/-! ## Conversion -/

/-- A long number is converted by way of a product with a power of ten. -/
theorem ofScientific_eq {n : ℕ} (hpos : 0 < n) :
    UnpackedFloat.ofScientific .binary64 n 0 =
      roundWithAccuracy .binary64 .positive (n * 2 ^ 53) (0 - (53 : ℕ)) .exact := by
  have hlow : ¬ (0 : ℤ) < -((2 ^ 11 : ℤ) + n.log2) := by omega
  have hexponent : (-53 + 0 : ℤ) = 0 - (53 : ℕ) := rfl
  unfold UnpackedFloat.ofScientific
  rw [dif_neg hpos.ne', if_neg (by decide), if_neg hlow, if_pos le_rfl]
  change roundWithAccuracy .binary64 .positive (n <<< 53 * 1) (-53 + 0) .exact = _
  rw [mul_one, Nat.shiftLeft_eq, hexponent]

/-- A natural number of at most 64 bits is converted to a number of about its size. -/
theorem exists_value?_ofNat {n : ℕ} (hwidth : n < 2 ^ 64) :
    ∃ a, value? (Float.ofNat n) = some a ∧ 0 ≤ a ∧ a ≤ 2 ^ 64 := by
  by_cases hshort : n < 2 ^ 53
  · refine ⟨n, (denotes_ofNat hshort).1.value, Nat.cast_nonneg n, ?_⟩
    exact_mod_cast hwidth.le
  · have hpos : 0 < n := by omega
    have hlog : n.log2 < 64 := (Nat.log2_lt hpos.ne').mpr hwidth
    have hlog' : 53 ≤ n.log2 := (Nat.le_log2 hpos.ne').mpr (Nat.not_lt.mp hshort)
    have htotal : totalExponent (n * 2 ^ 53) (0 - (53 : ℕ)) = n.log2 + 1 := by
      rw [totalExponent_shift hpos, totalExponent, add_zero]
    obtain ⟨a, ha, hlow, hhigh⟩ := exists_roundWithAccuracy .exact (b := 64) (by omega)
      (by rw [targetExponent_eq, htotal]; omega) (by rw [htotal]; omega)
    rw [← ofScientific_eq hpos] at ha
    have hconverted : Float.ofNat n =
        .ofModel (.pack (UnpackedFloat.ofScientific .binary64 n 0)) := by
      change Float.ofScientific n false 0 = _
      unfold Float.ofScientific
      rw [dif_neg (by omega)]
      rfl
    have hunpack : (Float.ofNat n).toModel.unpack = UnpackedFloat.ofScientific .binary64 n 0 := by
      rw [hconverted]
      exact unpack_pack ha.stored
    refine ⟨a, ?_, hlow, hhigh⟩
    unfold value?
    rw [hunpack]
    exact ha.value

/-! ## Division -/

theorem divCore_eq (m : ℕ) (e : ℤ) (m' : ℕ) (e' : ℤ) :
    ∃ k : ℕ, ∃ t, t + k = e - e' ∧
      t ≤ Format.binary64.targetExponent (totalExponent m e - totalExponent m' e') ∧
      divCore .binary64 m e m' e' =
        (m * 2 ^ k / m', t, accuracyOfFraction (m * 2 ^ k % m') m') := by
  let t := min (e - e') (Format.binary64.targetExponent (totalExponent m e - totalExponent m' e'))
  have ht : t ≤ e - e' := min_le_left _ _
  refine ⟨(e - e' - t).toNat, t, by omega, min_le_right _ _, ?_⟩
  rw [← Nat.shiftLeft_eq]
  rfl

/-- How long a quotient is, given how long the numbers are. -/
theorem totalExponent_div {m m' : ℕ} {e e' : ℤ} {k : ℕ} (hm : 0 < m) (hm' : 0 < m')
    (hk : t + k = e - e') :
    totalExponent m e - totalExponent m' e' ≤ totalExponent (m * 2 ^ k / m') t ∧
      totalExponent (m * 2 ^ k / m') t ≤ totalExponent m e - e' := by
  obtain ⟨hlower, hupper⟩ := (Nat.log2_eq_iff hm.ne').mp rfl
  have hlong : m.log2 + k < m'.log2 + 1 + ((m * 2 ^ k / m').log2 + 1) := by
    refine (Nat.pow_lt_pow_iff_right one_lt_two).mp ?_
    calc 2 ^ (m.log2 + k) = 2 ^ m.log2 * 2 ^ k := pow_add _ _ _
      _ ≤ m * 2 ^ k := Nat.mul_le_mul_right _ hlower
      _ < m' * (m * 2 ^ k / m' + 1) := Nat.lt_mul_div_succ _ hm'
      _ ≤ 2 ^ (m'.log2 + 1) * 2 ^ ((m * 2 ^ k / m').log2 + 1) :=
        Nat.mul_le_mul Nat.lt_log2_self.le Nat.lt_log2_self
      _ = 2 ^ (m'.log2 + 1 + ((m * 2 ^ k / m').log2 + 1)) := (pow_add _ _ _).symm
  have hshort : (m * 2 ^ k / m').log2 ≤ m.log2 + k := by
    rcases Nat.eq_zero_or_pos (m * 2 ^ k / m') with hzero | hpos
    · rw [hzero, Nat.log2_zero]
      exact Nat.zero_le _
    · refine Nat.lt_succ_iff.mp ((Nat.log2_lt hpos.ne').mpr ?_)
      calc m * 2 ^ k / m' ≤ m * 2 ^ k := Nat.div_le_self _ _
        _ < 2 ^ (m.log2 + 1) * 2 ^ k := Nat.mul_lt_mul_of_pos_right hupper (by positivity)
        _ = 2 ^ (m.log2 + k + 1) := by ring
  unfold totalExponent
  omega

theorem Canonical.exponent_le (h : Canonical m e) (hlarge : (m : ℚ) * 2 ^ e ≤ 2 ^ 64) : e ≤ 12 := by
  by_contra hexponent
  have hfull : (2 ^ 52 : ℚ) ≤ m := by exact_mod_cast h.full.resolve_right (by omega)
  have hpow : (2 : ℚ) ^ (13 : ℤ) ≤ 2 ^ e := zpow_le_zpow_right₀ one_le_two (by omega)
  have hproduct : (2 ^ 64 : ℚ) < m * 2 ^ e := by
    calc (2 ^ 64 : ℚ) < 2 ^ 52 * 2 ^ (13 : ℤ) := by norm_num
      _ ≤ m * 2 ^ e := by gcongr
  exact hlarge.not_gt hproduct

theorem Canonical.le_exponent (h : Canonical m e) (hsmall : 1 ≤ (m : ℚ) * 2 ^ e) : -52 ≤ e := by
  by_contra hexponent
  have hwidth : (m : ℚ) < 2 ^ 53 := by exact_mod_cast h.width
  have hpow : (2 : ℚ) ^ e ≤ 2 ^ (-53 : ℤ) := zpow_le_zpow_right₀ one_le_two (by omega)
  have hproduct : (m : ℚ) * 2 ^ e < 1 := by
    calc (m : ℚ) * 2 ^ e < 2 ^ 53 * 2 ^ e := by gcongr
      _ ≤ 2 ^ 53 * 2 ^ (-53 : ℤ) := by gcongr
      _ = 1 := by norm_num
  exact hsmall.not_gt hproduct

/-- Canonical numbers are divided. -/
theorem Canonical.exists_div {m' : ℕ} {e' : ℤ} (h : Canonical m e) (h' : Canonical m' e')
    (hlarge : (m : ℚ) * 2 ^ e ≤ 2 ^ 64) (hsmall : 1 ≤ (m' : ℚ) * 2 ^ e') :
    ∃ a, Denotes (UnpackedFloat.div .binary64 (.finite .positive m e h.pos)
      (.finite .positive m' e' h'.pos)) a ∧ 0 ≤ a := by
  obtain ⟨k, t, hk, ht, hcore⟩ := divCore_eq m e m' e'
  obtain ⟨hlower, hupper⟩ := totalExponent_div h.pos h'.pos hk
  have hlog : m.log2 < 53 := (Nat.log2_lt h.pos.ne').mpr h.width
  have hexponent := h.exponent_le hlarge
  have hexponent' := h'.le_exponent hsmall
  rw [Double.targetExponent_eq] at ht
  obtain ⟨a, ha, hpos, -⟩ := exists_roundWithAccuracy
    (accuracyOfFraction (m * 2 ^ k % m') m') (b := 117) (by omega)
    (by rw [Double.targetExponent_eq]; omega)
    (hupper.trans (by unfold totalExponent; omega))
  refine ⟨a, ?_, hpos⟩
  unfold UnpackedFloat.div
  dsimp only
  rw [hcore]
  exact ha

/-- A positive number has a plus sign. -/
theorem Canonical.sign_eq (h : Canonical m e) {s : Sign}
    (hpos : 0 ≤ ((s.apply m : ℤ) : ℚ) * 2 ^ e) :
    s = .positive := by
  cases s with
  | positive => rfl
  | negative =>
    rw [value_negative] at hpos
    linarith [h.magnitude_pos]

/-- A number that is not negative or too large can be divided by one that is at least one. -/
theorem exists_value?_div {x y : Float} {a b : ℚ} (hx : value? x = some a) (ha : 0 ≤ a)
    (hlarge : a ≤ 2 ^ 64) (hy : value? y = some b) (hb : 1 ≤ b) :
    ∃ c, value? (x / y) = some c ∧ 0 ≤ c := by
  have hdiv {c : ℚ}
      (h : Denotes (UnpackedFloat.div .binary64 x.toModel.unpack y.toModel.unpack) c) :
      value? (x / y) = some c := by
    have hunpack : (x / y).toModel.unpack =
        UnpackedFloat.div .binary64 x.toModel.unpack y.toModel.unpack := unpack_pack h.stored
    unfold value?
    rw [hunpack]
    exact h.value
  rcases denotes_cases (denotes_of_value? hy) with ⟨s', -, rfl⟩ | ⟨s', m', e', hc', hunpack', rfl⟩
  · norm_num at hb
  · obtain rfl := hc'.sign_eq (zero_le_one.trans hb)
    rcases denotes_cases (denotes_of_value? hx) with ⟨s, hunpack, rfl⟩ | ⟨s, m, e, hc, hunpack, rfl⟩
    · refine ⟨0, hdiv ?_, le_rfl⟩
      rw [hunpack, hunpack']
      exact denotes_zero _
    · obtain rfl := hc.sign_eq ha
      obtain ⟨c, hc, hpos⟩ := hc.exists_div hc' hlarge hb
      rw [← hunpack, ← hunpack'] at hc
      exact ⟨c, hdiv hc, hpos⟩

end VideoSync.Double
