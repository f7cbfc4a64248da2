import VideoSync.Proofs.Double.Rounding

/-
  Binary64 numbers as bits. A sign bit, eleven bits of an exponent and 52 bits of a mantissa stand
  for zeros, infinities, NaN and the canonical finite numbers, and for nothing else. Every one of
  these has exactly one row of bits: `unpack_pack` and `pack_unpack`.
-/

namespace VideoSync.Double

open Float.Model (Format UnpackedFloat)
open Float.Model.UnpackedFloat

/-- What bits can stand for: finite numbers are canonical. -/
def Stored : UnpackedFloat → Prop
  | .finite _ m e _ => Canonical m e
  | _ => True

/-- What the three fields of a number stand for. -/
def decode (sign : BitVec 1) (exponent : BitVec 11) (mantissa : BitVec 52) : UnpackedFloat :=
  if exponent = -1#11 then
    if mantissa = 0#52 then .infinity (.ofBitVec sign) else .notANumber
  else if exponent = 0#11 then
    if h : mantissa.toNat = 0 then .zero (.ofBitVec sign)
    else .finite (.ofBitVec sign) mantissa.toNat (-1074) (Nat.pos_of_ne_zero h)
  else
    .finite (.ofBitVec sign) (2 ^ 52 + mantissa.toNat) (exponent.toNat - 1075) (by positivity)

variable {sign : BitVec 1} {exponent : BitVec 11} {mantissa : BitVec 52}

theorem toNat_implicit (mantissa : BitVec 52) :
    (1#1 ++ mantissa).toNat = 2 ^ 52 + mantissa.toNat := by
  rw [BitVec.toNat_append, ← Nat.shiftLeft_add_eq_or_of_lt mantissa.isLt]
  rfl

theorem finite_congr {s : Sign} {m m' : ℕ} {e e' : ℤ} (hm : m = m') (he : e = e')
    (hpos : 0 < m) (hpos' : 0 < m') :
    UnpackedFloat.finite s m e hpos = .finite s m' e' hpos' := by
  subst hm he
  rfl

theorem unpack_eq (b : BitVec 64) :
    unpack .binary64 b = decode (@unpackSign .binary64 b)
      (@unpackExponent .binary64 b) (@unpackMantissa .binary64 b) := by
  by_cases hones : @unpackExponent .binary64 b = -1#11
  · exact (if_pos hones).trans (if_pos hones).symm
  refine (if_neg hones).trans (.trans ?_ (if_neg hones).symm)
  by_cases hzeros : @unpackExponent .binary64 b = 0#11
  · refine (if_pos hzeros).trans (.trans ?_ (if_pos hzeros).symm)
    by_cases hnone : @unpackMantissa .binary64 b = 0#52
    · have hnothing : (@unpackMantissa .binary64 b).toNat = 0 := congrArg BitVec.toNat hnone
      rw [dif_pos hnothing]
      exact dif_pos hnone
    · have hsome : (@unpackMantissa .binary64 b).toNat ≠ 0 := BitVec.toNat_ne.mp hnone
      rw [dif_neg hsome]
      refine (dif_neg hnone).trans (finite_congr rfl ?_ _ _)
      rw [hzeros]
      rfl
  · exact (if_neg hzeros).trans
      ((finite_congr (toNat_implicit _) rfl _ _).trans (if_neg hzeros).symm)

/-- The five kinds of bits: NaN, infinities, zeros, and finite numbers with an exponent of zeros or
another one. -/
theorem decode_cases (sign : BitVec 1) (exponent : BitVec 11) (mantissa : BitVec 52) :
    (exponent = -1#11 ∧ mantissa ≠ 0#52 ∧ decode sign exponent mantissa = .notANumber) ∨
    (exponent = -1#11 ∧ mantissa = 0#52 ∧
      decode sign exponent mantissa = .infinity (.ofBitVec sign)) ∨
    (exponent = 0#11 ∧ mantissa = 0#52 ∧
      decode sign exponent mantissa = .zero (.ofBitVec sign)) ∨
    (exponent = 0#11 ∧ ∃ hpos : 0 < mantissa.toNat, decode sign exponent mantissa =
      .finite (.ofBitVec sign) mantissa.toNat (-1074) hpos) ∨
    (exponent ≠ -1#11 ∧ exponent ≠ 0#11 ∧ ∃ hpos : 0 < 2 ^ 52 + mantissa.toNat,
      decode sign exponent mantissa =
        .finite (.ofBitVec sign) (2 ^ 52 + mantissa.toNat) (exponent.toNat - 1075) hpos) := by
  unfold decode
  by_cases hones : exponent = -1#11
  · rw [if_pos hones]
    by_cases hnone : mantissa = 0#52
    · exact .inr (.inl ⟨hones, hnone, if_pos hnone⟩)
    · exact .inl ⟨hones, hnone, if_neg hnone⟩
  rw [if_neg hones]
  by_cases hzeros : exponent = 0#11
  · rw [if_pos hzeros]
    by_cases hnone : mantissa.toNat = 0
    · exact .inr (.inr (.inl ⟨hzeros, BitVec.eq_of_toNat_eq hnone, dif_pos hnone⟩))
    · exact .inr (.inr (.inr (.inl ⟨hzeros, Nat.pos_of_ne_zero hnone, dif_neg hnone⟩)))
  · exact .inr (.inr (.inr (.inr ⟨hones, hzeros, by omega, if_neg hzeros⟩)))

theorem stored_decode : Stored (decode sign exponent mantissa) := by
  have hmantissa := mantissa.isLt
  have hexponent := exponent.isLt
  rcases decode_cases sign exponent mantissa with ⟨-, -, hnan⟩ | ⟨-, -, hinfinite⟩ |
    ⟨-, -, hzero⟩ | ⟨-, hpos, hshort⟩ | ⟨hones, hzeros, hpos, hfull⟩
  · rw [hnan]
    trivial
  · rw [hinfinite]
    trivial
  · rw [hzero]
    trivial
  · rw [hshort]
    exact ⟨by omega, by omega, by omega, by omega, .inr rfl⟩
  · have hlow : exponent.toNat ≠ 0 := fun h => hzeros (BitVec.eq_of_toNat_eq h)
    have hhigh : exponent.toNat ≠ 2047 := fun h => hones (BitVec.eq_of_toNat_eq h)
    rw [hfull]
    exact ⟨by omega, by omega, by omega, by omega, .inl (by omega)⟩

theorem stored_unpack (x : Float.Model) : Stored x.unpack := by
  unfold Float.Model.unpack
  rw [unpack_eq]
  exact stored_decode

/-! ## Fields -/

theorem ofBitVec_toBitVec (s : Sign) : Sign.ofBitVec s.toBitVec = s := by
  cases s <;> rfl

theorem toBitVec_ofBitVec (b : BitVec 1) : (Sign.ofBitVec b).toBitVec = b := by
  revert b
  decide

theorem unpackSign_packComponents (s : Sign) (exponent : BitVec 11) (mantissa : BitVec 52) :
    unpackSign (packComponents .binary64 s exponent mantissa) = s.toBitVec := by
  change (s.toBitVec ++ exponent ++ mantissa).extractLsb' 63 1 = s.toBitVec
  rw [BitVec.extractLsb'_append_eq_of_le (by decide)]
  exact BitVec.extractLsb'_append_eq_left

/-- The three fields side by side are the bits that they were taken from. -/
theorem packComponents_fields (b : BitVec 64) :
    packComponents .binary64 (.ofBitVec (@unpackSign .binary64 b))
      (@unpackExponent .binary64 b) (@unpackMantissa .binary64 b) = b := by
  have hhigh : b.extractLsb' 63 1 ++ b.extractLsb' 52 11 = b.extractLsb' 52 12 :=
    BitVec.extractLsb'_append_extractLsb'_eq_extractLsb' rfl
  have hall : b.extractLsb' 52 12 ++ b.extractLsb' 0 52 = b.extractLsb' 0 64 :=
    BitVec.extractLsb'_append_extractLsb'_eq_extractLsb' rfl
  rw [packComponents, toBitVec_ofBitVec]
  change b.extractLsb' 63 1 ++ b.extractLsb' 52 11 ++ b.extractLsb' 0 52 = b
  rw [hhigh, hall]
  exact BitVec.extractLsb'_eq_self

theorem unpack_packComponents (s : Sign) (exponent : BitVec 11) (mantissa : BitVec 52) :
    unpack .binary64 (packComponents .binary64 s exponent mantissa) =
      decode s.toBitVec exponent mantissa := by
  rw [unpack_eq, unpackSign_packComponents, unpackExponent_packComponents,
    unpackMantissa_packComponents]

/-! ## Packing -/

variable {m : ℕ} {e : ℤ} {s : Sign}

/-- A canonical number with all 53 bits is packed without the first of them. -/
theorem Canonical.pack_of_full (h : Canonical m e) (hfull : 2 ^ 52 ≤ m) :
    pack .binary64 (.finite s m e h.pos) = packComponents .binary64 s
      (.ofNat 11 (e + 1075).toNat) (.ofNat 52 m) := by
  have hwidth := h.width
  have hhigh := h.high
  have hlog : m.log2 = 52 := (Nat.log2_eq_iff h.pos.ne').mpr ⟨hfull, hwidth⟩
  have hbiased : e + ((Format.binary64.exponentBias : ℕ) : ℤ) + (52 : ℕ) = e + 1075 := by
    have hbias : ((Format.binary64.exponentBias : ℕ) : ℤ) = 1023 := rfl
    omega
  unfold pack
  dsimp only
  rw [hbiased, if_neg (by omega), if_pos (by rw [hlog]; rfl)]

/-- A shorter one is packed with an exponent of zeros. -/
theorem Canonical.pack_of_lt (h : Canonical m e) (hlt : m < 2 ^ 52) :
    pack .binary64 (.finite s m e h.pos) =
      packComponents .binary64 s 0#11 (.ofNat 52 m) := by
  obtain rfl : e = -1074 := h.full.resolve_left (by omega)
  have hlog : m.log2 < 52 := (Nat.log2_lt h.pos.ne').mpr hlt
  have hmantissa : Format.binary64.mantissaBits = 53 := rfl
  unfold pack
  dsimp only
  rw [if_neg (by decide), if_neg (by omega)]

theorem Canonical.unpack_pack_of_full (h : Canonical m e) (hfull : 2 ^ 52 ≤ m) :
    unpack .binary64 (pack .binary64 (.finite s m e h.pos)) = .finite s m e h.pos := by
  have hwidth := h.width
  have hlow := h.low
  have hhigh := h.high
  have hexponent : (BitVec.ofNat 11 (e + 1075).toNat).toNat = (e + 1075).toNat := by
    rw [BitVec.toNat_ofNat]
    omega
  have hmantissa : 2 ^ 52 + (BitVec.ofNat 52 m).toNat = m := by
    rw [BitVec.toNat_ofNat]
    omega
  have hfinite : BitVec.ofNat 11 (e + 1075).toNat ≠ -1#11 := by
    have hones : (-1#11).toNat = 2047 := rfl
    refine BitVec.toNat_ne.mpr ?_
    omega
  have hnormal : BitVec.ofNat 11 (e + 1075).toNat ≠ 0#11 := by
    refine BitVec.toNat_ne.mpr ?_
    rw [hexponent, BitVec.toNat_zero]
    omega
  rw [h.pack_of_full hfull, unpack_packComponents, decode, if_neg hfinite, if_neg hnormal,
    ofBitVec_toBitVec]
  refine finite_congr hmantissa ?_ _ _
  rw [hexponent]
  omega

theorem Canonical.unpack_pack_of_lt (h : Canonical m e) (hlt : m < 2 ^ 52) :
    unpack .binary64 (pack .binary64 (.finite s m e h.pos)) = .finite s m e h.pos := by
  have hpos := h.pos
  have hmantissa : (BitVec.ofNat 52 m).toNat = m := by
    rw [BitVec.toNat_ofNat]
    omega
  obtain rfl : e = -1074 := h.full.resolve_left (by omega)
  rw [h.pack_of_lt hlt, unpack_packComponents, decode, if_neg (by decide), if_pos rfl,
    dif_neg (by omega), ofBitVec_toBitVec]
  exact finite_congr hmantissa rfl _ _

/-- Bits hold what was packed into them. -/
theorem unpack_pack {u : UnpackedFloat} (h : Stored u) :
    unpack .binary64 (pack .binary64 u) = u := by
  cases u with
  | notANumber => exact (unpack_packComponents _ _ _).trans rfl
  | infinity s => exact (unpack_packComponents _ _ _).trans (by cases s <;> rfl)
  | zero s => exact (unpack_packComponents _ _ _).trans (by cases s <;> rfl)
  | finite s m e hpos =>
    have hcanonical : Canonical m e := h
    rcases le_or_gt (2 ^ 52) m with hfull | hlt
    · exact hcanonical.unpack_pack_of_full hfull
    · exact hcanonical.unpack_pack_of_lt hlt

/-- Other bits than those of NaN are the only ones for what they stand for. -/
theorem pack_decode (h : exponent = -1#11 → mantissa = 0#52) :
    pack .binary64 (decode sign exponent mantissa) =
      packComponents .binary64 (.ofBitVec sign) exponent mantissa := by
  have hstored : Stored (decode sign exponent mantissa) := stored_decode
  have hmantissa := mantissa.isLt
  have hexponent := exponent.isLt
  rcases decode_cases sign exponent mantissa with ⟨hones, hsome, -⟩ | ⟨hones, hnone, hinfinite⟩ |
    ⟨hzeros, hnone, hzero⟩ | ⟨hzeros, hpos, hshort⟩ | ⟨hones, hzeros, hpos, hfull⟩
  · exact absurd (h hones) hsome
  · rw [hinfinite, hones, hnone]
    rfl
  · rw [hzero, hzeros, hnone]
    rfl
  · rw [hshort] at hstored ⊢
    rw [Canonical.pack_of_lt hstored hmantissa, hzeros, BitVec.ofNat_toNat, BitVec.setWidth_eq]
  · rw [hfull] at hstored ⊢
    rw [Canonical.pack_of_full hstored (by omega)]
    congr 1
    · refine BitVec.eq_of_toNat_eq ?_
      rw [BitVec.toNat_ofNat]
      omega
    · refine BitVec.eq_of_toNat_eq ?_
      rw [BitVec.toNat_ofNat]
      omega

theorem pack_unpack_bits {b : BitVec 64} (hvalid : Format.binary64.Valid b) :
    pack .binary64 (unpack .binary64 b) = b := by
  by_cases hnan : @unpackExponent .binary64 b = -1#11 ∧
      @unpackMantissa .binary64 b ≠ 0#52
  · rw [unpack_eq, decode, if_pos hnan.1, if_neg hnan.2]
    exact (hvalid.eq_packedNaN hnan.1 hnan.2).symm
  · rw [unpack_eq, pack_decode fun h => not_not.mp fun hne => hnan ⟨h, hne⟩,
      packComponents_fields]

/-- A number is what its bits stand for. -/
theorem pack_unpack (x : Float.Model) : Float.Model.pack x.unpack = x := by
  obtain ⟨bits, hvalid⟩ := x
  unfold Float.Model.pack Float.Model.unpack
  rw [Float.Model.mk.injEq, pack_unpack_bits hvalid]

end VideoSync.Double
