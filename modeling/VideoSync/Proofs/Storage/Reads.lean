import VideoSync.Storage.Source

/-
  What reads return. A source is `Steady` when every read of a byte that is there returns one or
  fails. However short its single reads are, filling a buffer then gives the bytes up to its length
  or up to the end, or it fails. A source is `Plain` when moreover its reads and seeks do not fail;
  bytes in memory are such a source. All that a plain source ever returns is a function of its
  bytes.
-/

namespace VideoSync.Storage.Source

variable {s : Source}

/-- What a source holds from a position on. -/
def tail (s : Source) (pos : Nat) : List UInt8 := s.bytes.toList.drop pos

/-- A source without faults. -/
structure Plain (s : Source) : Prop where
  reads : s.readFault = none
  seeks : s.seekFault = none
  grants : ∀ pos wanted, 0 < wanted → 0 < s.grant pos wanted

theorem memory_plain (b : Bytes) : (memory b).Plain := ⟨rfl, rfl, fun _ _ hw => hw⟩

theorem slice_eq (s : Source) (pos count : Nat) : s.slice pos count = (s.tail pos).take count := by
  unfold slice tail
  rw [Array.toList_extract, List.extract_eq_take_drop, Nat.add_sub_cancel_left]

theorem length_tail (s : Source) (pos : Nat) : (s.tail pos).length = s.bytes.size - pos := by
  unfold tail
  rw [List.length_drop, Array.length_toList]

theorem tail_add (s : Source) (pos count : Nat) :
    s.tail (pos + count) = (s.tail pos).drop count := by
  unfold tail
  rw [List.drop_drop]

/-! ## How much is read -/

theorem length_slice_le (s : Source) (pos count : Nat) : (s.slice pos count).length ≤ count := by
  rw [slice_eq]
  exact List.length_take_le _ _

theorem length_read_le {pos wanted : Nat} {bytes : List UInt8} (h : s.read pos wanted = .ok bytes) :
    bytes.length ≤ wanted := by
  unfold read at h
  dsimp only at h
  split at h
  · split at h
    · contradiction
    · rw [← Except.ok.inj h]
      exact Nat.le_trans (s.length_slice_le _ _) (by omega)
  · rw [← Except.ok.inj h]
    exact Nat.le_trans (s.length_slice_le _ _) (by omega)

theorem length_fill_le {pos wanted : Nat} {bytes : List UInt8} (h : s.fill pos wanted = .ok bytes) :
    bytes.length ≤ wanted := by
  induction wanted using Nat.strongRecOn generalizing pos bytes with
  | ind wanted ih =>
    rw [fill] at h
    split at h
    · rw [← Except.ok.inj h]
      exact Nat.zero_le _
    · split at h
      · contradiction
      · rw [← Except.ok.inj h]
        exact Nat.zero_le _
      · next b more hread =>
        have hfirst : more.length + 1 ≤ wanted := length_read_le hread
        cases hrest : s.fill (pos + more.length + 1) (wanted - (more.length + 1)) with
        | error e =>
          rw [hrest] at h
          contradiction
        | ok rest =>
          have hmore := ih _ (by omega) hrest
          rw [hrest] at h
          rw [← Except.ok.inj h, List.length_append, List.length_cons]
          omega

/-- A read returns no more than there is from its position on. -/
theorem length_read_le_size {pos wanted : Nat} {bytes : List UInt8}
    (h : s.read pos wanted = .ok bytes) : bytes.length ≤ s.bytes.size - pos := by
  have hslice (count : Nat) : (s.slice pos count).length ≤ s.bytes.size - pos := by
    rw [slice_eq, List.length_take, length_tail]
    omega
  unfold read at h
  dsimp only at h
  split at h
  · split at h
    · contradiction
    · rw [← Except.ok.inj h]
      exact hslice _
  · rw [← Except.ok.inj h]
    exact hslice _

theorem length_fill_le_size {pos wanted : Nat} {bytes : List UInt8}
    (h : s.fill pos wanted = .ok bytes) : bytes.length ≤ s.bytes.size - pos := by
  induction wanted using Nat.strongRecOn generalizing pos bytes with
  | ind wanted ih =>
    rw [fill] at h
    split at h
    · rw [← Except.ok.inj h]
      exact Nat.zero_le _
    · split at h
      · contradiction
      · rw [← Except.ok.inj h]
        exact Nat.zero_le _
      · next b more hread =>
        have hfirst : more.length + 1 ≤ s.bytes.size - pos := length_read_le_size hread
        cases hrest : s.fill (pos + more.length + 1) (wanted - (more.length + 1)) with
        | error e =>
          rw [hrest] at h
          contradiction
        | ok rest =>
          have hmore := ih _ (by omega) hrest
          rw [hrest] at h
          rw [← Except.ok.inj h, List.length_append, List.length_cons]
          omega

/-- An exact read returns as many bytes as are wanted. -/
theorem length_exactly {pos wanted : Nat} {bytes : List UInt8}
    (h : s.exactly pos wanted = .ok bytes) : bytes.length = wanted := by
  unfold exactly at h
  split at h
  · contradiction
  · next found hfill =>
    have hle := length_fill_le hfill
    split at h
    · contradiction
    · obtain rfl := Except.ok.inj h
      omega

/-- The bytes of an exact read are there. -/
theorem le_size_of_exactly {pos wanted : Nat} {bytes : List UInt8} (hwanted : 0 < wanted)
    (h : s.exactly pos wanted = .ok bytes) : pos + wanted ≤ s.bytes.size := by
  have hlength := length_exactly h
  unfold exactly at h
  split at h
  · contradiction
  · next found hfill =>
    have hle := length_fill_le_size hfill
    split at h
    · contradiction
    · obtain rfl := Except.ok.inj h
      omega

/-! ## Steady sources -/

/-- Every read of a byte that is there returns one or fails. -/
def Steady (s : Source) : Prop := ∀ pos wanted, 0 < wanted → 0 < s.grant pos wanted

namespace Steady

/-- A read fails or returns bytes that are there. -/
theorem read_cases (h : s.Steady) {wanted : Nat} (hwanted : 0 < wanted) (pos : Nat) :
    (s.readFault ≠ none ∧ s.read pos wanted = .error s.failure) ∨
      ∃ count, 0 < count ∧ s.read pos wanted = .ok ((s.tail pos).take count) ∧ count ≤ wanted := by
  have hgrant := h pos wanted hwanted
  unfold read
  cases hfault : s.readFault with
  | none =>
    refine .inr ⟨min wanted (s.grant pos wanted), by omega, ?_, by omega⟩
    dsimp only
    rw [slice_eq]
  | some fault =>
    dsimp only
    split
    · exact .inl ⟨nofun, rfl⟩
    · refine .inr ⟨min (min wanted (s.grant pos wanted)) (fault - pos), by omega, ?_, by omega⟩
      rw [slice_eq]

/-- Filling a buffer fails, or short reads add up. -/
theorem fill_cases (h : s.Steady) (pos wanted : Nat) :
    (s.readFault ≠ none ∧ s.fill pos wanted = .error s.failure) ∨
      s.fill pos wanted = .ok ((s.tail pos).take wanted) := by
  induction wanted using Nat.strongRecOn generalizing pos with
  | ind wanted ih =>
    rw [fill]
    split
    · next hzero => exact .inr (by rw [hzero, List.take_zero])
    · next hzero =>
      rcases h.read_cases (Nat.pos_of_ne_zero hzero) pos with
        ⟨hfault, hread⟩ | ⟨count, hpos, hread, hle⟩
      · exact .inl ⟨hfault, by rw [hread]⟩
      · rw [hread]
        cases hbytes : (s.tail pos).take count with
        | nil =>
          have hend : s.tail pos = [] :=
            (List.take_eq_nil_iff.mp hbytes).resolve_left (by omega)
          exact .inr (by rw [hend, List.take_nil])
        | cons b more =>
          have hlength : more.length + 1 = min count (s.tail pos).length := by
            rw [← List.length_take, hbytes, List.length_cons]
          have hfirst : b :: more = (s.tail pos).take (more.length + 1) := by
            rw [← hbytes, List.take_eq_take_iff, hlength]
            omega
          have hwanted : more.length + 1 + (wanted - (more.length + 1)) = wanted := by omega
          dsimp only
          rw [Nat.add_assoc]
          rcases ih (wanted - (more.length + 1)) (by omega) (pos + (more.length + 1)) with
            ⟨hfault, hrest⟩ | hrest
          · exact .inl ⟨hfault, by rw [hrest]; rfl⟩
          · refine .inr ?_
            rw [hrest, tail_add, hfirst, Except.map, ← List.take_add, hwanted]

end Steady

namespace Plain

theorem steady (h : s.Plain) : s.Steady := h.grants

theorem seek_eq (h : s.Plain) (pos : Nat) : s.seek pos = .ok () := by
  unfold seek
  rw [h.seeks]
  rfl

/-- Short reads add up. -/
theorem fill_eq (h : s.Plain) (pos wanted : Nat) :
    s.fill pos wanted = .ok ((s.tail pos).take wanted) :=
  (h.steady.fill_cases pos wanted).resolve_left fun hfails => hfails.1 h.reads

/-- An exact read gives the bytes if there are enough. -/
theorem exactly_eq (h : s.Plain) (pos wanted : Nat) :
    s.exactly pos wanted =
      if wanted ≤ (s.tail pos).length then .ok ((s.tail pos).take wanted) else .error earlyEnd := by
  unfold exactly
  rw [h.fill_eq]
  dsimp only
  rw [List.length_take]
  split <;> split <;> first | rfl | omega

end Plain
end VideoSync.Storage.Source
