import VideoSync.Proofs.Double.Integers
import VideoSync.Timeline.Alignment

/-
  How a video lies relative to a session when both last whole seconds. The numbers of the alignment
  are then integers without rounding, so that the verdict and the first position are those of the
  intervals themselves: playback starts at the first instant that they have in common, and without
  one at the end of the video that is nearer to the session: `initialPosition_align`.
-/

namespace VideoSync.Timeline

open VideoSync.Double

variable {i j creation duration : ℤ} {session : Session}

/-! ## Whole seconds -/

theorem larger_ofInt (hi : i.natAbs < 2 ^ 53) (hj : j.natAbs < 2 ^ 53) :
    larger (Float.ofInt i) (Float.ofInt j) = Float.ofInt (max i j) := by
  rw [larger, isNaN_ofInt hj, if_neg Bool.false_ne_true]
  by_cases hlt : j < i
  · rw [if_pos ((ofInt_lt hj hi).mpr hlt), max_eq_left hlt.le]
  · rw [if_neg (mt (ofInt_lt hj hi).mp hlt), max_eq_right (not_lt.mp hlt)]

theorem smaller_ofInt (hi : i.natAbs < 2 ^ 53) (hj : j.natAbs < 2 ^ 53) :
    smaller (Float.ofInt i) (Float.ofInt j) = Float.ofInt (min i j) := by
  rw [smaller, isNaN_ofInt hj, if_neg Bool.false_ne_true]
  by_cases hlt : i < j
  · rw [if_pos ((ofInt_lt hi hj).mpr hlt), min_eq_left hlt.le]
  · rw [if_neg (mt (ofInt_lt hi hj).mp hlt), min_eq_right (not_lt.mp hlt)]

theorem signed_of_natAbs_lt (hi : i.natAbs < 2 ^ 53) : Width.signed 64 i = true := by
  rw [Width.signed, decide_eq_true_iff, Width.capacity_63]
  omega

/-- A video and a session of some length, in whole seconds of 51 bits. -/
structure Measured (creation duration : ℤ) (session : Session) : Prop where
  creation_lt : creation.natAbs < 2 ^ 51
  duration_lt : duration.natAbs < 2 ^ 51
  start_lt : session.start.natAbs < 2 ^ 51
  stop_lt : session.stop.natAbs < 2 ^ 51
  lasts : 0 < duration
  runs : session.start < session.stop

namespace Measured

/-- The differences of the instants fit 64 bits with room to spare. -/
theorem offset_eq (h : Measured creation duration session) :
    (align creation (Float.ofInt duration) session).offset =
      Float.ofInt (session.start - creation) := by
  obtain ⟨hcreation, -, hstart, -, -, -⟩ := h
  exact offset_align (signed_of_natAbs_lt (by omega)) _

theorem session_duration_eq (h : Measured creation duration session) :
    session.duration = session.stop - session.start := by
  obtain ⟨-, -, hstart, hstop, -, -⟩ := h
  exact Session.duration_eq (signed_of_natAbs_lt (by omega))

/-- The verdict compares the instants themselves. -/
theorem overlaps_iff (h : Measured creation duration session) :
    (align creation (Float.ofInt duration) session).overlaps = true ↔
      session.start < creation + duration ∧ creation < session.stop := by
  obtain ⟨hcreation, hduration, hstart, hstop, hlasts, hruns⟩ := h
  unfold align
  dsimp only
  rw [decide_eq_true_iff, ofInt_add (by omega) (by omega) (by omega),
    ofInt_lt (by omega) (by omega)]

/-- The first position is that of the session start, moved into the video. -/
theorem initialPosition_eq (h : Measured creation duration session) :
    (align creation (Float.ofInt duration) session).initialPosition (Float.ofInt duration) =
      Float.ofInt (min (max (session.start - creation) 0) duration) := by
  have hoffset := h.offset_eq
  obtain ⟨hcreation, hduration, hstart, hstop, hlasts, hruns⟩ := h
  rw [Alignment.initialPosition, hoffset, zero_eq, larger_ofInt (by omega) (by omega),
    larger_ofInt (by omega) (by omega), smaller_ofInt (by omega) (by omega), max_eq_left hlasts.le]

/-- A whole video position, on the clock of the session. -/
theorem telemetryTime_eq (h : Measured creation duration session) {position : ℤ}
    (hposition : position.natAbs < 2 ^ 52) :
    (align creation (Float.ofInt duration) session).telemetryTime (Float.ofInt position) =
      Float.ofInt (creation + position - session.start) := by
  have hoffset := h.offset_eq
  obtain ⟨hcreation, hduration, hstart, hstop, hlasts, hruns⟩ := h
  rw [Alignment.telemetryTime, hoffset, ofInt_sub (by omega) (by omega) (by omega)]
  congr 1
  omega

/-- In an overlap the first position is that of the later start. -/
theorem initialPosition_of_overlaps (h : Measured creation duration session)
    (hoverlaps : session.start < creation + duration ∧ creation < session.stop) :
    (align creation (Float.ofInt duration) session).initialPosition (Float.ofInt duration) =
      Float.ofInt (max creation session.start - creation) := by
  have hlasts := h.lasts
  have hfirst : min (max (session.start - creation) 0) duration =
      max creation session.start - creation := by omega
  rw [h.initialPosition_eq, hfirst]

/-- On the clock of the session this is the later start as well. -/
theorem telemetryTime_of_overlaps (h : Measured creation duration session)
    (hoverlaps : session.start < creation + duration ∧ creation < session.stop) :
    (align creation (Float.ofInt duration) session).telemetryTime
        ((align creation (Float.ofInt duration) session).initialPosition (Float.ofInt duration)) =
      Float.ofInt (max creation session.start - session.start) := by
  obtain ⟨hcreation, hduration, hstart, hstop, hlasts, hruns⟩ := id h
  rw [h.initialPosition_of_overlaps hoverlaps, h.telemetryTime_eq (by omega), add_sub_cancel]

/-- A video that ends before the session starts is at its end. -/
theorem initialPosition_of_before (h : Measured creation duration session)
    (hbefore : creation + duration ≤ session.start) :
    (align creation (Float.ofInt duration) session).initialPosition (Float.ofInt duration) =
      Float.ofInt duration := by
  have hlasts := h.lasts
  have hend : min (max (session.start - creation) 0) duration = duration := by omega
  rw [h.initialPosition_eq, hend]

/-- A video that starts when the session is over is at its start. -/
theorem initialPosition_of_after (h : Measured creation duration session)
    (hafter : session.stop ≤ creation) :
    (align creation (Float.ofInt duration) session).initialPosition (Float.ofInt duration) =
      0.0 := by
  have hlasts := h.lasts
  have hruns := h.runs
  have hbegin : min (max (session.start - creation) 0) duration = 0 := by omega
  rw [h.initialPosition_eq, hbegin, zero_eq]

end Measured

/-- A video and a session overlap exactly if the later start comes before the earlier end. Then the
first position is that of the later start, inside the video and inside the session. Otherwise one of
them ends before the other one starts, and the first position is the end of the video or its
start. -/
theorem initialPosition_align (h : Measured creation duration session) :
    let a := align creation (Float.ofInt duration) session
    let p := a.initialPosition (Float.ofInt duration)
    (a.overlaps = true ↔
      max creation session.start < min (creation + duration) session.stop) ∧
    (a.overlaps = true →
      p = Float.ofInt (max creation session.start - creation) ∧
      Float.ofInt creation + p = Float.ofInt (max creation session.start) ∧
      0.0 ≤ p ∧ p < Float.ofInt duration ∧
      0.0 ≤ a.telemetryTime p ∧ a.telemetryTime p < Float.ofInt session.duration) ∧
    (a.overlaps = false →
      (creation + duration ≤ session.start ∨ session.stop ≤ creation) ∧
      (creation + duration ≤ session.start → p = Float.ofInt duration) ∧
      (session.stop ≤ creation → p = 0.0)) := by
  obtain ⟨hcreation, hduration, hstart, hstop, hlasts, hruns⟩ := id h
  intro a p
  refine ⟨?_, fun hoverlaps => ?_, fun hapart => ?_⟩
  · rw [h.overlaps_iff]
    omega
  · rw [h.overlaps_iff] at hoverlaps
    have hp : p = Float.ofInt (max creation session.start - creation) :=
      h.initialPosition_of_overlaps hoverlaps
    have htelemetry : a.telemetryTime p =
        Float.ofInt (max creation session.start - session.start) :=
      h.telemetryTime_of_overlaps hoverlaps
    refine ⟨hp, ?_, ?_, ?_, ?_, ?_⟩
    · rw [hp, ofInt_add (by omega) (by omega) (by omega), add_sub_cancel]
    · rw [hp, zero_eq, ofInt_le (by omega) (by omega)]
      omega
    · rw [hp, ofInt_lt (by omega) (by omega)]
      omega
    · rw [htelemetry, zero_eq, ofInt_le (by omega) (by omega)]
      omega
    · rw [htelemetry, h.session_duration_eq, ofInt_lt (by omega) (by omega)]
      omega
  · have hapart : ¬ (session.start < creation + duration ∧ creation < session.stop) := by
      rw [← h.overlaps_iff]
      exact Bool.eq_false_iff.mp hapart
    exact ⟨by omega, h.initialPosition_of_before, h.initialPosition_of_after⟩

/-- A video of one minute that starts ten seconds before a session of an hour. -/
theorem initialPosition_of_earlyVideo :
    Measured 1699999990 60 ⟨1700000000, 1700003600⟩ ∧
      (align 1699999990 (Float.ofInt 60) ⟨1700000000, 1700003600⟩).overlaps = true ∧
      (align 1699999990 (Float.ofInt 60) ⟨1700000000, 1700003600⟩).initialPosition
        (Float.ofInt 60) = Float.ofInt 10 := by
  have hmeasured : Measured 1699999990 60 ⟨1700000000, 1700003600⟩ := by
    constructor <;> decide
  have hlaw := initialPosition_align hmeasured
  have hoverlaps := hlaw.1.mpr (by decide)
  exact ⟨hmeasured, hoverlaps, (hlaw.2.1 hoverlaps).1⟩

end VideoSync.Timeline
