import VideoSync.Proofs.Double.Values

/-
  Integers as binary64 numbers. An integer of at most 53 bits is its own value, so sums, differences
  and the order of such integers are the same before and after the conversion: `ofInt_add`,
  `ofInt_sub`, `ofInt_lt`.
-/

namespace VideoSync.Double

open Float.Model (Format UnpackedFloat)
open Float.Model.UnpackedFloat

/-- An integer has a canonical form if it has at most 53 bits. -/
theorem exists_canonical {n : ℕ} (hpos : 0 < n) (hwidth : n < 2 ^ 53) :
    ∃ m e, Canonical m e ∧ (m : ℚ) * 2 ^ e = n := by
  obtain ⟨hlower, hupper⟩ := (Nat.log2_eq_iff hpos.ne').mp rfl
  have hlog : n.log2 < 53 := (Nat.log2_lt hpos.ne').mpr hwidth
  obtain ⟨k, hk⟩ : ∃ k, n.log2 + k = 52 := ⟨52 - n.log2, by omega⟩
  have hpow : 2 ^ n.log2 * 2 ^ k = 2 ^ 52 := by rw [← pow_add, hk]
  have hpow' : 2 ^ (n.log2 + 1) * 2 ^ k = 2 ^ 53 := by
    rw [← pow_add, add_right_comm, hk]
  refine ⟨n * 2 ^ k, -(k : ℤ), ⟨by positivity, ?_, by omega, by omega, .inl ?_⟩, ?_⟩
  · rw [← hpow']
    exact Nat.mul_lt_mul_of_pos_right hupper (by positivity)
  · rw [← hpow]
    exact Nat.mul_le_mul_right _ hlower
  · rw [Nat.cast_mul, Nat.cast_pow, Nat.cast_two, mul_assoc, ← zpow_natCast,
      ← zpow_add₀ two_ne_zero, add_neg_cancel, zpow_zero, mul_one]

/-- A natural number that is converted. -/
theorem denotes_ofUInt64 {n : ℕ} (hwidth : n < 2 ^ 53) :
    Denotes n.toUInt64.toFloat.toModel.unpack n ∧
      Unsigned n.toUInt64.toFloat.toModel.unpack := by
  have hsize : n.toUInt64.toNat = n := by
    rw [Nat.toUInt64, UInt64.toNat_ofNat']
    omega
  have hround : Denotes (UnpackedFloat.normalize .binary64 n 0 .positive) n ∧
      Unsigned (UnpackedFloat.normalize .binary64 n 0 .positive) := by
    have hvalue : ((n : ℤ) : ℚ) * 2 ^ (0 : ℤ) = n := by simp
    rcases Nat.eq_zero_or_pos n with rfl | hpos
    · exact ⟨denotes_zero .positive, nofun⟩
    · obtain ⟨m, e, hc, hm⟩ := exists_canonical hpos hwidth
      have hdenotes := hc.denotes .positive
      rw [value_positive, hm, ← hvalue] at hdenotes
      rw [← hvalue]
      exact denotes_normalize hdenotes
  have hunpack : n.toUInt64.toFloat.toModel.unpack =
      UnpackedFloat.normalize .binary64 n 0 .positive := by
    change unpack .binary64 (pack .binary64
      (UnpackedFloat.normalize .binary64 (n.toUInt64.toNat : ℤ) 0 .positive)) = _
    rw [hsize]
    exact unpack_pack hround.1.stored
  rw [hunpack]
  exact hround

/-- One as it is stored. -/
def one : UnpackedFloat := .finite .positive (2 ^ 52) (-52) (by positivity)

theorem unpack_ofBits_one : (Float.ofBits 4607182418800017408).toModel.unpack = one := rfl

/-- A product with one is exact. -/
theorem mul_one_eq {u : UnpackedFloat} {a : ℚ} (h : Denotes u a) :
    UnpackedFloat.mul .binary64 u one = u := by
  have hsign (s : Sign) : s * .positive = s := by cases s <;> rfl
  rcases denotes_cases h with ⟨s, rfl, -⟩ | ⟨s, m, e, hc, rfl, -⟩
  · exact congrArg UnpackedFloat.zero (hsign s)
  · refine Eq.trans ?_ (hc.roundWithAccuracy_eq 52)
    exact congrArg (roundWithAccuracy .binary64 · (m * 2 ^ 52) (e - 52) .exact) (hsign s)

/-- A natural number as text is converted, and multiplied with the power of ten for no digits. -/
theorem ofNat_eq {n : ℕ} (hwidth : n < 2 ^ 53) :
    Float.ofNat n = n.toUInt64.toFloat * Float.ofBits 4607182418800017408 := by
  change Float.ofScientific n false 0 = _
  unfold Float.ofScientific
  rw [dif_pos ⟨hwidth, Nat.zero_le 22⟩]
  rfl

theorem denotes_ofNat {n : ℕ} (hwidth : n < 2 ^ 53) :
    Denotes (Float.ofNat n).toModel.unpack n ∧ Unsigned (Float.ofNat n).toModel.unpack := by
  have hconverted := denotes_ofUInt64 hwidth
  have hunpack : (Float.ofNat n).toModel.unpack = n.toUInt64.toFloat.toModel.unpack := by
    rw [ofNat_eq hwidth]
    change unpack .binary64 (pack .binary64
      (UnpackedFloat.mul .binary64 n.toUInt64.toFloat.toModel.unpack
        (Float.ofBits 4607182418800017408).toModel.unpack)) = _
    rw [unpack_ofBits_one, mul_one_eq hconverted.1, unpack_pack hconverted.1.stored]
  rw [hunpack]
  exact hconverted

/-! ## Integers -/

theorem denotes_ofInt {n : ℤ} (hwidth : n.natAbs < 2 ^ 53) :
    Denotes (Float.ofInt n).toModel.unpack n ∧ Unsigned (Float.ofInt n).toModel.unpack := by
  cases n with
  | ofNat n => exact denotes_ofNat hwidth
  | negSucc n =>
    have hnat : Denotes (Float.ofNat (n + 1)).toModel.unpack ((n + 1 : ℕ) : ℚ) :=
      (denotes_ofNat hwidth).1
    have hneg := hnat.neg
    have hunpack : (Float.ofInt (.negSucc n)).toModel.unpack =
        (Float.ofNat (n + 1)).toModel.unpack.neg := unpack_pack hneg.stored
    rw [hunpack, Int.cast_negSucc]
    refine ⟨hneg, ?_⟩
    rcases denotes_cases hnat with ⟨s, -, hzero⟩ | ⟨s, m, e, hc, hfinite, -⟩
    · exact absurd (Nat.cast_eq_zero.mp hzero) n.succ_ne_zero
    · rw [hfinite]
      nofun

theorem value?_ofInt {n : ℤ} (hwidth : n.natAbs < 2 ^ 53) :
    value? (Float.ofInt n) = some (n : ℚ) :=
  (denotes_ofInt hwidth).1.value

theorem zero_eq : (0.0 : Float) = Float.ofInt 0 := rfl

variable {i j : ℤ}

theorem ofInt_add (hi : i.natAbs < 2 ^ 53) (hj : j.natAbs < 2 ^ 53)
    (hsum : (i + j).natAbs < 2 ^ 53) :
    Float.ofInt i + Float.ofInt j = Float.ofInt (i + j) := by
  have hvalue := value?_ofInt hsum
  rw [Int.cast_add] at hvalue
  have hadd := value?_add (value?_ofInt hi) (value?_ofInt hj) hvalue
  exact ext_value hadd.1 hvalue (hadd.2 (denotes_ofInt hi).2) (denotes_ofInt hsum).2

theorem ofInt_sub (hi : i.natAbs < 2 ^ 53) (hj : j.natAbs < 2 ^ 53)
    (hdiff : (i - j).natAbs < 2 ^ 53) :
    Float.ofInt i - Float.ofInt j = Float.ofInt (i - j) := by
  have hvalue := value?_ofInt hdiff
  rw [Int.cast_sub] at hvalue
  have hsub := value?_sub (value?_ofInt hi) (value?_ofInt hj) hvalue
  exact ext_value hsub.1 hvalue (hsub.2 (denotes_ofInt hi).2) (denotes_ofInt hdiff).2

theorem ofInt_lt (hi : i.natAbs < 2 ^ 53) (hj : j.natAbs < 2 ^ 53) :
    Float.ofInt i < Float.ofInt j ↔ i < j := by
  rw [lt_iff (value?_ofInt hi) (value?_ofInt hj), Int.cast_lt]

theorem ofInt_le (hi : i.natAbs < 2 ^ 53) (hj : j.natAbs < 2 ^ 53) :
    Float.ofInt i ≤ Float.ofInt j ↔ i ≤ j := by
  rw [le_iff (value?_ofInt hi) (value?_ofInt hj), Int.cast_le]

theorem isNaN_ofInt (hi : i.natAbs < 2 ^ 53) : (Float.ofInt i).isNaN = false :=
  isNaN_of_value? (value?_ofInt hi)

end VideoSync.Double
