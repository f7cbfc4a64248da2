import VideoSync.Proofs.Container.Fields
import VideoSync.Proofs.Double.Quotients

/-
  Durations. The fields of a movie header have at most 64 bits, whatever source they are read from,
  so the duration that a container gives is a finite number of seconds and not negative:
  `duration_of_readMetadata`.
-/

namespace VideoSync.Container

open VideoSync.Storage (Source)

/-! ## The size of fields -/

theorem bigEndian_lt (bytes : List UInt8) : bigEndian bytes < 256 ^ bytes.length := by
  induction bytes with
  | nil => exact Nat.one_pos
  | cons b bytes ih =>
    have hfirst : bigEndian (b :: bytes) = b.toNat * 256 ^ bytes.length + bigEndian bytes := by
      rw [← List.singleton_append, bigEndian_append]
      simp [bigEndian]
    have hbyte : (b.toNat + 1) * 256 ^ bytes.length ≤ 256 * 256 ^ bytes.length :=
      Nat.mul_le_mul_right _ b.toNat_lt
    rw [hfirst, List.length_cons, Nat.pow_succ, Nat.mul_comm]
    linarith

variable {s : Source} {mvhd : Header} {value : Nat}

theorem lt_of_readField {offset width : Nat} (h : readField s mvhd offset width = .ok value) :
    value < 256 ^ width := by
  have hbytes (h : readField.readBytes s offset width = .ok value) : value < 256 ^ width := by
    unfold readField.readBytes at h
    split at h
    · contradiction
    · split at h
      · contradiction
      · next bytes hread =>
        rw [← Except.ok.inj h, ← Source.length_exactly hread]
        exact bigEndian_lt bytes
  unfold readField at h
  split at h
  · split at h
    · contradiction
    · exact hbytes h
  · exact hbytes h

theorem lt_of_fieldIn {span : Span} (h : fieldIn s mvhd span = some value) :
    value < 256 ^ span.width := by
  unfold fieldIn at h
  cases hread : readField s mvhd (mvhd.bodyStart + span.offset) span.width with
  | error e =>
    rw [hread] at h
    contradiction
  | ok found =>
    rw [hread] at h
    obtain rfl := Option.some.inj h
    exact lt_of_readField hread

/-! ## Durations -/

theorem duration_of_readDuration? {version : Nat} {seconds : Float}
    (h : readDuration? s mvhd version = some seconds) :
    ∃ a, Double.value? seconds = some a ∧ 0 ≤ a := by
  obtain ⟨timescale, duration, htimescale, hduration, hne, -, rfl⟩ := readDuration?_eq_some_iff.mp h
  have htimescale' : timescale < 256 ^ 4 := by
    have hwidth : (Span.timescale version).width = 4 := by
      unfold Span.timescale
      split <;> rfl
    rw [← hwidth]
    exact lt_of_fieldIn htimescale
  have hduration' : duration < 256 ^ 8 := by
    have hwidth : (Span.duration version).width ≤ 8 := by
      unfold Span.duration
      split <;> decide
    exact (lt_of_fieldIn hduration).trans_le (Nat.pow_le_pow_right (by decide) hwidth)
  obtain ⟨a, ha, hpos, hlarge⟩ := Double.exists_value?_ofNat (n := duration) (by omega)
  have hb : Double.value? (Float.ofNat timescale) = some (timescale : ℚ) :=
    (Double.denotes_ofNat (by omega)).1.value
  refine Double.exists_value?_div ha hpos hlarge hb ?_
  exact_mod_cast Nat.one_le_iff_ne_zero.mpr hne

/-- The duration that a container gives is a finite number and not negative. -/
theorem duration_of_readMetadata {m : Metadata} {seconds : Float} (h : readMetadata s = .ok m)
    (hduration : m.duration = some seconds) : ∃ a, Double.value? seconds = some a ∧ 0 ≤ a := by
  unfold readMetadata at h
  split at h
  · contradiction
  · contradiction
  · split at h
    · contradiction
    · contradiction
    · unfold readMovieHeader at h
      split at h
      · contradiction
      · split at h
        · contradiction
        · split at h
          · contradiction
          · obtain rfl := Except.ok.inj h
            exact duration_of_readDuration? hduration

end VideoSync.Container
