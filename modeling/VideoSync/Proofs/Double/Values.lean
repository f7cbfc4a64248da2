import Mathlib.Tactic.Linarith
import VideoSync.Proofs.Double.Bits

/-
  Values of binary64 numbers. Every finite number has a value, and apart from the sign of zero it is
  determined by it. The order of numbers is that of their values, and a sum or a difference is exact
  whenever some number has the exact value: `lt_iff`, `value?_add`, `value?_sub`.
-/

namespace VideoSync.Double

open Float.Model (Format UnpackedFloat)
open Float.Model.UnpackedFloat

/-! ## Unpacked numbers -/

/-- The value of an unpacked number that is finite. -/
def valueOf : UnpackedFloat → Option ℚ
  | .zero _ => some 0
  | .finite s m e _ => some ((s.apply m : ℤ) * 2 ^ e)
  | _ => none

/-- A number that bits can stand for and its value. -/
structure Denotes (u : UnpackedFloat) (a : ℚ) : Prop where
  stored : Stored u
  value : valueOf u = some a

variable {u v w : UnpackedFloat} {a b : ℚ} {s : Sign} {m : ℕ} {e : ℤ}

theorem apply_ne_zero (s : Sign) {m : ℕ} (hm : 0 < m) : s.apply m ≠ 0 := by
  cases s <;> simp [Sign.apply, hm.ne']

theorem scaled_ne_zero {n : ℤ} (hn : n ≠ 0) (e : ℤ) : (n : ℚ) * 2 ^ e ≠ 0 :=
  mul_ne_zero (Int.cast_ne_zero.mpr hn) (zpow_ne_zero e two_ne_zero)

/-- Zeros denote zero, and canonical numbers denote something else. -/
theorem denotes_cases (h : Denotes u a) :
    (∃ s, u = .zero s ∧ a = 0) ∨
      ∃ s m e, ∃ hc : Canonical m e, u = .finite s m e hc.pos ∧ a = (s.apply m : ℤ) * 2 ^ e := by
  obtain ⟨hstored, hvalue⟩ := h
  cases u with
  | zero s => exact .inl ⟨s, rfl, (Option.some.inj hvalue).symm⟩
  | finite s m e hm => exact .inr ⟨s, m, e, hstored, rfl, (Option.some.inj hvalue).symm⟩
  | infinity s => contradiction
  | notANumber => contradiction

theorem denotes_zero (s : Sign) : Denotes (.zero s) 0 := ⟨trivial, rfl⟩

theorem Canonical.denotes (h : Canonical m e) (s : Sign) :
    Denotes (.finite s m e h.pos) ((s.apply m : ℤ) * 2 ^ e) := ⟨h, rfl⟩

/-- Zero with a plus sign, or a number that is not zero. -/
def Unsigned (u : UnpackedFloat) : Prop := u ≠ .zero .negative

theorem sign_of_unsigned_zero {s : Sign} (h : Unsigned (.zero s)) : s = .positive := by
  cases s with
  | positive => rfl
  | negative => exact absurd rfl h

/-- Normalizing is exact when some number has the exact value. -/
theorem denotes_normalize {n : ℤ} (hw : Denotes w (n * 2 ^ e)) :
    Denotes (UnpackedFloat.normalize .binary64 n e .positive) (n * 2 ^ e) ∧
      Unsigned (UnpackedFloat.normalize .binary64 n e .positive) := by
  rcases denotes_cases hw with ⟨s, -, hzero⟩ | ⟨s, m, e', hc, -, hvalue⟩
  · obtain rfl : n = 0 := by
      by_contra hn
      exact scaled_ne_zero hn e hzero
    rw [hzero]
    exact ⟨denotes_zero .positive, nofun⟩
  · rw [hc.normalize_of_value .positive hvalue, hvalue]
    exact ⟨hc.denotes s, nofun⟩

/-- A number is known from its value, but for the sign of zero. -/
theorem Denotes.ext (hu : Denotes u a) (hv : Denotes v a) (hu' : Unsigned u) (hv' : Unsigned v) :
    u = v := by
  rcases denotes_cases hu with ⟨s, rfl, hzero⟩ | ⟨s, m, e, hc, rfl, hvalue⟩
  · rcases denotes_cases hv with ⟨s', rfl, -⟩ | ⟨s', m', e', hc', -, hvalue'⟩
    · rw [sign_of_unsigned_zero hu', sign_of_unsigned_zero hv']
    · exact absurd (hvalue'.symm.trans hzero) (scaled_ne_zero (apply_ne_zero s' hc'.pos) e')
  · rcases denotes_cases hv with ⟨s', -, hzero⟩ | ⟨s', m', e', hc', rfl, hvalue'⟩
    · exact absurd (hvalue.symm.trans hzero) (scaled_ne_zero (apply_ne_zero s hc.pos) e)
    · rw [← hc.normalize_of_value .positive (hvalue'.symm.trans hvalue),
        hc'.normalize_of_value .positive rfl]

/-! ## Sums and differences -/

/-- Decreasing the exponent keeps the value. -/
theorem decreaseExponent_value (m : ℕ) {e e' : ℤ} (h : e' ≤ e) :
    ((decreaseExponent m e e').1 : ℚ) * 2 ^ e' = m * 2 ^ e := by
  obtain ⟨k, hk⟩ := Int.le.dest h
  have hshift : (e - e').toNat = k := by omega
  unfold decreaseExponent
  dsimp only
  rw [hshift, Nat.shiftLeft_eq, ← hk, zpow_add₀ two_ne_zero, zpow_natCast]
  push_cast
  ring

theorem apply_value (s : Sign) {m m' : ℕ} {e e' : ℤ} (h : (m' : ℚ) * 2 ^ e' = m * 2 ^ e) :
    ((s.apply m' : ℤ) : ℚ) * 2 ^ e' = (s.apply m : ℤ) * 2 ^ e := by
  cases s with
  | positive => exact h
  | negative =>
    simp only [Sign.apply]
    push_cast
    linarith

/-- A sum is exact when some number has the exact value. -/
theorem denotes_add (hu : Denotes u a) (hv : Denotes v b) (hw : Denotes w (a + b)) :
    Denotes (UnpackedFloat.add .binary64 u v) (a + b) ∧
      (Unsigned u → Unsigned (UnpackedFloat.add .binary64 u v)) := by
  rcases denotes_cases hu with ⟨s, rfl, rfl⟩ | ⟨s, m, e, hc, rfl, rfl⟩
  · rcases denotes_cases hv with ⟨s', rfl, rfl⟩ | ⟨s', m', e', hc', rfl, rfl⟩
    · rw [add_zero]
      cases s with
      | negative => exact ⟨by cases s' <;> exact denotes_zero _, fun hs => (hs rfl).elim⟩
      | positive => exact ⟨by cases s' <;> exact denotes_zero _, fun _ => by cases s' <;> nofun⟩
    · rw [zero_add]
      exact ⟨hv, fun _ => nofun⟩
  · rcases denotes_cases hv with ⟨s', rfl, rfl⟩ | ⟨s', m', e', hc', rfl, rfl⟩
    · rw [add_zero]
      exact ⟨hu, fun hu => hu⟩
    · have hleft := apply_value s (decreaseExponent_value m (min_le_left e e'))
      have hright := apply_value s' (decreaseExponent_value m' (min_le_right e e'))
      have hsum : ((s.apply (decreaseExponent m e (min e e')).1 +
          s'.apply (decreaseExponent m' e' (min e e')).1 : ℤ) : ℚ) * 2 ^ min e e' =
          (s.apply m : ℤ) * 2 ^ e + (s'.apply m' : ℤ) * 2 ^ e' := by
        rw [Int.cast_add, add_mul, hleft, hright]
      rw [← hsum] at hw ⊢
      exact (denotes_normalize hw).imp_right fun h _ => h

theorem apply_neg (s : Sign) (n : ℤ) : (-s).apply n = -s.apply n := by
  cases s with
  | positive => rfl
  | negative => exact (neg_neg n).symm

theorem Denotes.neg (h : Denotes u a) : Denotes u.neg (-a) := by
  rcases denotes_cases h with ⟨s, rfl, rfl⟩ | ⟨s, m, e, hc, rfl, rfl⟩
  · rw [neg_zero]
    exact denotes_zero (-s)
  · have hneg := hc.denotes (-s)
    rw [apply_neg, Int.cast_neg, neg_mul] at hneg
    exact hneg

/-- Subtracting is adding the opposite. -/
theorem sub_eq_add_opposite (spec : Format) (u v : UnpackedFloat) :
    UnpackedFloat.sub spec u v = UnpackedFloat.add spec u v.neg := by
  cases u with
  | finite s m e hm =>
    cases v with
    | finite s' m' e' hm' =>
      unfold UnpackedFloat.sub UnpackedFloat.add UnpackedFloat.neg
      dsimp only
      rw [apply_neg, Int.sub_eq_add_neg]
    | zero s' => rfl
    | infinity s' => rfl
    | notANumber => rfl
  | zero s => cases v <;> rfl
  | infinity s => cases v <;> rfl
  | notANumber => cases v <;> rfl

/-- A difference is exact when some number has the exact value. -/
theorem denotes_sub (hu : Denotes u a) (hv : Denotes v b) (hw : Denotes w (a - b)) :
    Denotes (UnpackedFloat.sub .binary64 u v) (a - b) ∧
      (Unsigned u → Unsigned (UnpackedFloat.sub .binary64 u v)) := by
  rw [sub_eq_add_neg] at hw ⊢
  rw [sub_eq_add_opposite]
  exact denotes_add hu hv.neg hw

/-! ## Order -/

/-- Canonical numbers are ordered by exponent first. -/
theorem Canonical.lt_of_exponent {m' : ℕ} {e' : ℤ} (h : Canonical m e) (h' : Canonical m' e')
    (hlt : e < e') : (m : ℚ) * 2 ^ e < m' * 2 ^ e' := by
  have hlow := h.low
  have hfull : 2 ^ 52 ≤ m' := h'.full.resolve_right (by omega)
  calc (m : ℚ) * 2 ^ e < 2 ^ 53 * 2 ^ e := by
        have hwidth : (m : ℚ) < 2 ^ 53 := by exact_mod_cast h.width
        gcongr
    _ = 2 ^ 52 * 2 ^ (e + 1) := by
        rw [zpow_add_one₀ two_ne_zero]
        ring
    _ ≤ m' * 2 ^ e' := by
        have hwidth : (2 ^ 52 : ℚ) ≤ m' := by exact_mod_cast hfull
        have hpow : (2 : ℚ) ^ (e + 1) ≤ 2 ^ e' := zpow_le_zpow_right₀ one_le_two hlt
        gcongr

theorem Canonical.compare_eq {m' : ℕ} {e' : ℤ} (h : Canonical m e) (h' : Canonical m' e') :
    (compare e e').then (compare m m') = compare ((m : ℚ) * 2 ^ e) (m' * 2 ^ e') := by
  rcases lt_trichotomy e e' with hlt | rfl | hgt
  · rw [Int.compare_eq_lt.mpr hlt, compare_lt_iff_lt.mpr (h.lt_of_exponent h' hlt)]
    rfl
  · have hscale : StrictMono fun n : ℕ => (n : ℚ) * 2 ^ e := fun i j hlt =>
      mul_lt_mul_of_pos_right (Nat.cast_lt.mpr hlt) (by positivity)
    have hsame : compare e e = .eq := Int.compare_eq_eq.mpr rfl
    rw [hsame]
    rcases lt_trichotomy m m' with hlt | rfl | hgt
    · rw [Nat.compare_eq_lt.mpr hlt, compare_lt_iff_lt.mpr (hscale hlt)]
      rfl
    · rw [Nat.compare_eq_eq.mpr rfl, compare_eq_iff_eq.mpr rfl]
      rfl
    · rw [Nat.compare_eq_gt.mpr hgt, compare_gt_iff_gt.mpr (hscale hgt)]
      rfl
  · rw [Int.compare_eq_gt.mpr hgt, compare_gt_iff_gt.mpr (h'.lt_of_exponent h hgt)]
    rfl

theorem compare_neg (a b : ℚ) : compare (-a) (-b) = (compare a b).swap := by
  rcases lt_trichotomy a b with hlt | rfl | hgt
  · rw [compare_lt_iff_lt.mpr hlt, compare_gt_iff_gt.mpr (neg_lt_neg hlt)]
    rfl
  · rw [compare_eq_iff_eq.mpr rfl, compare_eq_iff_eq.mpr rfl]
    rfl
  · rw [compare_gt_iff_gt.mpr hgt, compare_lt_iff_lt.mpr (neg_lt_neg hgt)]
    rfl

theorem Canonical.magnitude_pos (h : Canonical m e) : (0 : ℚ) < m * 2 ^ e :=
  mul_pos (Nat.cast_pos.mpr h.pos) (zpow_pos two_pos e)

theorem value_positive (m : ℕ) (e : ℤ) :
    ((Sign.positive.apply m : ℤ) : ℚ) * 2 ^ e = m * 2 ^ e := rfl

theorem value_negative (m : ℕ) (e : ℤ) :
    ((Sign.negative.apply m : ℤ) : ℚ) * 2 ^ e = -(m * 2 ^ e) := by
  rw [Sign.apply, Int.cast_neg, neg_mul, Int.cast_natCast]

/-- Numbers are compared as their values. -/
theorem compare_eq (hu : Denotes u a) (hv : Denotes v b) :
    u.compare v = some (compare a b) := by
  rcases denotes_cases hu with ⟨s, rfl, rfl⟩ | ⟨s, m, e, hc, rfl, rfl⟩
  · rcases denotes_cases hv with ⟨s', rfl, rfl⟩ | ⟨s', m', e', hc', rfl, rfl⟩
    · rw [compare_eq_iff_eq.mpr rfl]
      rfl
    · have hpos := hc'.magnitude_pos
      cases s' with
      | positive =>
        rw [value_positive, compare_lt_iff_lt.mpr hpos]
        rfl
      | negative =>
        rw [value_negative, compare_gt_iff_gt.mpr (neg_lt_zero.mpr hpos)]
        rfl
  · have hpos := hc.magnitude_pos
    rcases denotes_cases hv with ⟨s', rfl, rfl⟩ | ⟨s', m', e', hc', rfl, rfl⟩
    · cases s with
      | positive =>
        rw [value_positive, compare_gt_iff_gt.mpr hpos]
        rfl
      | negative =>
        rw [value_negative, compare_lt_iff_lt.mpr (neg_lt_zero.mpr hpos)]
        rfl
    · have hpos' := hc'.magnitude_pos
      cases s with
      | positive =>
        cases s' with
        | positive =>
          rw [value_positive, value_positive, ← hc.compare_eq hc']
          rfl
        | negative =>
          rw [value_positive, value_negative, compare_gt_iff_gt.mpr (by linarith)]
          rfl
      | negative =>
        cases s' with
        | positive =>
          rw [value_positive, value_negative, compare_lt_iff_lt.mpr (by linarith)]
          rfl
        | negative =>
          rw [value_negative, value_negative, compare_neg, ← hc.compare_eq hc']
          rfl

/-! ## Numbers -/

/-- The value of a number that is finite. -/
def value? (x : Float) : Option ℚ := valueOf x.toModel.unpack

variable {x y z : Float}

theorem denotes_of_value? (h : value? x = some a) : Denotes x.toModel.unpack a :=
  ⟨stored_unpack _, h⟩

theorem isNaN_of_value? (h : value? x = some a) : x.isNaN = false := by
  unfold Float.isNaN Float.Model.isNaN
  rcases denotes_cases (denotes_of_value? h) with ⟨s, hx, -⟩ | ⟨s, m, e, hc, hx, -⟩
  · rw [hx]
    rfl
  · rw [hx]
    rfl

theorem isFinite_of_value? (h : value? x = some a) : x.isFinite = true := by
  unfold Float.isFinite Float.Model.isFinite
  rcases denotes_cases (denotes_of_value? h) with ⟨s, hx, -⟩ | ⟨s, m, e, hc, hx, -⟩
  · rw [hx]
    rfl
  · rw [hx]
    rfl

/-- Less is less in value. -/
theorem lt_iff (hx : value? x = some a) (hy : value? y = some b) : x < y ↔ a < b := by
  have hless : x < y ↔ (x.toModel.unpack.compare y.toModel.unpack == some .lt) = true :=
    decide_eq_true_iff
  rw [hless, compare_eq (denotes_of_value? hx) (denotes_of_value? hy), beq_iff_eq,
    Option.some_inj, compare_lt_iff_lt]

/-- At most is at most in value. -/
theorem le_iff (hx : value? x = some a) (hy : value? y = some b) : x ≤ y ↔ a ≤ b := by
  have hle : x ≤ y ↔ (x.toModel.unpack.compare y.toModel.unpack).any (·.isLE) = true :=
    decide_eq_true_iff
  rw [hle, compare_eq (denotes_of_value? hx) (denotes_of_value? hy), Option.any_some,
    Std.LawfulBCmp.isLE_iff_le]

/-- Numbers are equal if their values are. -/
theorem beq_iff (hx : value? x = some a) (hy : value? y = some b) : (x == y) = true ↔ a = b := by
  have hequal : (x == y) = (x.toModel.unpack.compare y.toModel.unpack == some .eq) := rfl
  rw [hequal, compare_eq (denotes_of_value? hx) (denotes_of_value? hy), beq_iff_eq,
    Option.some_inj, compare_eq_iff_eq]

/-- Numbers with one value are the same, but for the sign of zero. -/
theorem ext_value (hx : value? x = some a) (hy : value? y = some a)
    (hx' : Unsigned x.toModel.unpack) (hy' : Unsigned y.toModel.unpack) : x = y := by
  have hsame := (denotes_of_value? hx).ext (denotes_of_value? hy) hx' hy'
  obtain ⟨x⟩ := x
  obtain ⟨y⟩ := y
  dsimp only at hsame
  rw [← pack_unpack x, hsame, pack_unpack]

/-- A sum is exact when some number has the exact value. -/
theorem value?_add (hx : value? x = some a) (hy : value? y = some b)
    (hz : value? z = some (a + b)) :
    value? (x + y) = some (a + b) ∧
      (Unsigned x.toModel.unpack → Unsigned (x + y).toModel.unpack) := by
  have hsum := denotes_add (denotes_of_value? hx) (denotes_of_value? hy) (denotes_of_value? hz)
  have hunpack : (x + y).toModel.unpack =
      UnpackedFloat.add .binary64 x.toModel.unpack y.toModel.unpack := unpack_pack hsum.1.stored
  unfold value?
  rw [hunpack]
  exact ⟨hsum.1.value, hsum.2⟩

/-- A difference is exact when some number has the exact value. -/
theorem value?_sub (hx : value? x = some a) (hy : value? y = some b)
    (hz : value? z = some (a - b)) :
    value? (x - y) = some (a - b) ∧
      (Unsigned x.toModel.unpack → Unsigned (x - y).toModel.unpack) := by
  have hdiff := denotes_sub (denotes_of_value? hx) (denotes_of_value? hy) (denotes_of_value? hz)
  have hunpack : (x - y).toModel.unpack =
      UnpackedFloat.sub .binary64 x.toModel.unpack y.toModel.unpack := unpack_pack hdiff.1.stored
  unfold value?
  rw [hunpack]
  exact ⟨hdiff.1.value, hdiff.2⟩

/-- What was added exactly can be taken away again. -/
theorem value?_add_sub_cancel (hx : value? x = some a) (hy : value? y = some b)
    (hexact : value? (x + y) = some (a + b)) : value? (x + y - y) = some a := by
  have hx' : value? x = some (a + b - b) := by rw [hx, add_sub_cancel_right]
  rw [(value?_sub hexact hy hx').1, add_sub_cancel_right]

end VideoSync.Double
