import VideoSync.Proofs.Storage.Faults

/-
  Where reads break off. Nothing behind the fault of a source can be read, so all that it can give
  are the bytes before it, and `cutOff` has just these in memory. Filling a buffer gives what the
  bytes in memory give unless the buffer reaches up to the fault (`BreaksIn`), and then it fails,
  whatever was read before: `fill_eq`. In an exact read the bytes in memory are then too few as
  well, so that both fail and differ in the failure alone: `exactly_eq`.
-/

namespace VideoSync.Storage.Source

/-- The bytes before the fault, in memory. -/
def cutOff (s : Source) : Source :=
  .memory <| match s.readFault with
    | none => s.bytes
    | some fault => s.bytes.extract 0 fault

/-- Some read for the wanted bytes fails: the fault or, if it is farther on, the position lies
before the end of what is wanted, and the bytes lead up to it. -/
def BreaksIn (s : Source) (pos wanted : Nat) : Prop :=
  ∃ fault ∈ s.readFault, max fault pos < pos + wanted ∧ max fault pos ≤ max s.bytes.size pos

instance (s : Source) (pos wanted : Nat) : Decidable (s.BreaksIn pos wanted) :=
  inferInstanceAs (Decidable (∃ fault ∈ s.readFault, _))

variable {s : Source}

theorem cutOff_plain (s : Source) : s.cutOff.Plain := memory_plain _

theorem cutOff_of_plain (h : s.Plain) : s.cutOff = .memory s.bytes := by
  rw [cutOff, h.reads]

theorem not_breaksIn_of_plain (h : s.Plain) (pos wanted : Nat) : ¬ s.BreaksIn pos wanted := by
  rintro ⟨fault, hfault, -⟩
  rw [h.reads] at hfault
  contradiction

theorem tail_cutOff {fault : Nat} (h : s.readFault = some fault) (pos : Nat) :
    s.cutOff.tail pos = (s.tail pos).take (fault - pos) := by
  rw [cutOff, h]
  simp [tail, memory, List.drop_take]

/-- A buffer that does not reach up to the fault gets the bytes. -/
theorem take_tail_cutOff {pos wanted : Nat} (h : ¬ s.BreaksIn pos wanted) :
    (s.cutOff.tail pos).take wanted = (s.tail pos).take wanted := by
  cases hfault : s.readFault with
  | none =>
    rw [cutOff, hfault]
    rfl
  | some fault =>
    rw [tail_cutOff hfault, List.take_take, List.take_eq_take_iff, length_tail]
    have hmiss : ¬ (max fault pos < pos + wanted ∧ max fault pos ≤ max s.bytes.size pos) :=
      fun hbreaks => h ⟨fault, hfault, hbreaks⟩
    omega

/-- A buffer that reaches up to the fault is longer than what is before it. -/
theorem length_tail_cutOff_lt {pos wanted : Nat} (h : s.BreaksIn pos wanted) :
    (s.cutOff.tail pos).length < wanted := by
  obtain ⟨fault, hfault, hbreaks⟩ := h
  rw [tail_cutOff hfault, List.length_take]
  omega

/-- What a read says of the fault: it fails at the fault and behind it, and otherwise it stays
before it. -/
theorem Steady.read_fault (h : s.Steady) {wanted : Nat} (hwanted : 0 < wanted) (pos : Nat) :
    (s.read pos wanted = .error s.failure ∧ ∃ fault ∈ s.readFault, fault ≤ pos) ∨
      ∃ bytes, s.read pos wanted = .ok bytes ∧ bytes.length ≤ wanted ∧
        bytes.length ≤ s.bytes.size - pos ∧ (bytes = [] → s.bytes.size ≤ pos) ∧
        ∀ fault ∈ s.readFault, pos < fault ∧ pos + bytes.length ≤ fault := by
  have hgrant := h pos wanted hwanted
  unfold read
  cases hfault : s.readFault with
  | none =>
    refine .inr ⟨_, rfl, ?_⟩
    rw [slice_eq, ← List.length_eq_zero_iff, List.length_take, length_tail]
    exact ⟨by omega, by omega, fun hempty => by omega, nofun⟩
  | some fault =>
    dsimp only
    split
    · next hle => exact .inl ⟨rfl, fault, rfl, hle⟩
    · refine .inr ⟨_, rfl, ?_⟩
      rw [slice_eq, ← List.length_eq_zero_iff, List.length_take, length_tail]
      refine ⟨by omega, by omega, fun hempty => by omega, ?_⟩
      rintro _ ⟨⟩
      omega

/-- Bytes put before what was read do not hide a failure. -/
theorem map_append_eq_error_iff {failure : Failure} {first : List UInt8}
    {rest : Except Failure (List UInt8)} :
    rest.map (first ++ ·) = .error failure ↔ rest = .error failure := by
  cases rest with
  | error other => exact Iff.rfl
  | ok more => simp [Except.map]

/-- Filling a buffer fails exactly if it reaches up to the fault. -/
theorem Steady.fill_eq_error_iff (h : s.Steady) (pos wanted : Nat) :
    s.fill pos wanted = .error s.failure ↔ s.BreaksIn pos wanted := by
  induction wanted using Nat.strongRecOn generalizing pos with
  | ind wanted ih =>
    rw [fill]
    split
    · refine iff_of_false (by simp) ?_
      rintro ⟨fault, -, hbreaks⟩
      omega
    next hzero =>
    rcases h.read_fault (Nat.pos_of_ne_zero hzero) pos with
      ⟨hread, fault, hfault, hle⟩ | ⟨bytes, hread, hwanted, hsize, hempty, hfault⟩
    · rw [hread]
      exact iff_of_true rfl ⟨fault, hfault, by omega, by omega⟩
    · rw [hread]
      cases bytes with
      | nil =>
        refine iff_of_false (by simp) ?_
        rintro ⟨fault, hmem, hbreaks⟩
        have hend := hempty rfl
        have hbehind := hfault fault hmem
        omega
      | cons b more =>
        rw [List.length_cons] at hwanted hsize hfault
        have hrest := ih (wanted - (more.length + 1)) (by omega) (pos + more.length + 1)
        rw [map_append_eq_error_iff, hrest]
        refine exists_congr fun fault => and_congr_right fun hmem => ?_
        have hbehind := hfault fault hmem
        omega

/-- Filling a buffer fails if it reaches up to the fault, and otherwise gives what is before
it. -/
theorem Steady.fill_eq (h : s.Steady) (pos wanted : Nat) :
    s.fill pos wanted =
      if s.BreaksIn pos wanted then .error s.failure else s.cutOff.fill pos wanted := by
  split
  · next hbreaks => exact (h.fill_eq_error_iff pos wanted).mpr hbreaks
  · next hfits =>
    rw [(cutOff_plain s).fill_eq, take_tail_cutOff hfits]
    refine (h.fill_cases pos wanted).resolve_left ?_
    rintro ⟨-, hfails⟩
    exact hfits ((h.fill_eq_error_iff pos wanted).mp hfails)

/-- An exact read that reaches up to the fault fails, and finds too few bytes before it. -/
theorem Steady.exactly_cases (h : s.Steady) (pos wanted : Nat) :
    (s.exactly pos wanted = .error s.failure ∧ s.cutOff.exactly pos wanted = .error earlyEnd ∧
        s.readFault ≠ none) ∨
      s.exactly pos wanted = s.cutOff.exactly pos wanted := by
  by_cases hbreaks : s.BreaksIn pos wanted
  · refine .inl ⟨?_, ?_, ?_⟩
    · rw [exactly, h.fill_eq, if_pos hbreaks]
    · rw [(cutOff_plain s).exactly_eq, if_neg (Nat.not_le.mpr (length_tail_cutOff_lt hbreaks))]
    · rintro hnone
      obtain ⟨fault, hfault, -⟩ := hbreaks
      rw [hnone] at hfault
      contradiction
  · exact .inr (by rw [exactly, exactly, h.fill_eq, if_neg hbreaks])

end VideoSync.Storage.Source
