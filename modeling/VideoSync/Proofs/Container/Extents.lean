import VideoSync.Proofs.Container.Walk

/-
  Where headers stand. However a source reads and fails, a header that it gives lies within its
  bytes and declares no less than its own length (`standsAt_of_readHeader`); so does the header that
  a scan finds, wherever the scan began (`exists_standsAt_of_findFrom`).
-/

namespace VideoSync.Container

open VideoSync.Storage (Source)

/-- A header stands at a position of a source, with all its bytes. -/
structure StandsAt (h : Header) (s : Source) (pos : Nat) : Prop where
  start : h.start = pos
  length : h.length = compactLength ∨ h.length = extendedLength
  within : pos + h.length ≤ s.bytes.size
  covers : ∀ size ∈ h.size, h.length ≤ size

variable {s : Source} {stop? : Option Nat} {tag : Tag} {pos : Nat} {h : Header}

theorem standsAt_of_checked {h' : Header} (heq : h'.checked = .ok h) (hstart : h'.start = pos)
    (hlength : h'.length = compactLength ∨ h'.length = extendedLength)
    (hwithin : pos + h'.length ≤ s.bytes.size) : StandsAt h s pos := by
  obtain ⟨rfl, hcovers⟩ := checked_eq_ok heq
  exact ⟨hstart, hlength, hwithin, hcovers⟩

/-- The header that eight bytes at a position begin. -/
theorem standsAt_of_readSized {bytes : List UInt8} (hbytes : bytes.length ≤ s.bytes.size - pos)
    (hread : readSized s pos bytes = .ok h) : StandsAt h s pos := by
  unfold readSized at hread
  split at hread
  · next a b c d t0 t1 t2 t3 =>
    have hwithin : pos + compactLength ≤ s.bytes.size := by
      have height : compactLength ≤ s.bytes.size - pos := hbytes
      have hpos : 0 < compactLength := by decide
      omega
    dsimp only at hread
    split at hread
    · obtain rfl := Except.ok.inj hread
      exact ⟨rfl, .inl rfl, hwithin, nofun⟩
    · split at hread
      · contradiction
      · next ext hext =>
        have hmore := Source.le_size_of_exactly (by decide) hext
        rw [Nat.add_assoc] at hmore
        exact standsAt_of_checked hread rfl (.inr rfl) hmore
    · exact standsAt_of_checked hread rfl (.inl rfl) hwithin
  · contradiction

theorem standsAt_of_readHeader (hread : readHeader s pos = .ok (some h)) : StandsAt h s pos := by
  unfold readHeader at hread
  split at hread
  · contradiction
  · split at hread
    · contradiction
    · exact nomatch Except.ok.inj hread
    · next bytes _ hfill =>
      exact standsAt_of_readSized (Source.length_fill_le_size hfill) (eq_ok_of_map_some hread)

/-- The header that a scan finds stands where the scan came to it. -/
theorem exists_standsAt_of_findFrom (hfind : findFrom s stop? tag pos = .ok (some h)) :
    ∃ p, StandsAt h s p := by
  fun_induction findFrom s stop? tag pos with
  | case2 => contradiction
  | case4 pos _ h' hnext =>
    obtain rfl := Option.some.inj (Except.ok.inj hfind)
    exact ⟨pos, standsAt_of_readHeader (nextHeader_eq_some_iff.mp hnext).1⟩
  | case6 _ _ _ _ _ _ _ _ ih => exact ih hfind
  | _ => cases hfind

/-- The body of a header that stands in a source begins in it, or where it ends. -/
theorem StandsAt.bodyStart_le (hstands : StandsAt h s pos) : h.bodyStart ≤ s.bytes.size := by
  rw [Header.bodyStart, hstands.start]
  exact hstands.within

/-- A box with a size ends behind its header, or at the greatest offset. -/
theorem StandsAt.le_stop (hstands : StandsAt h s pos) {stop : Nat} (hstop : h.stop? = some stop) :
    pos + h.length ≤ stop ∨ stop = maxOffset := by
  unfold Header.stop? at hstop
  cases hsize : h.size with
  | none =>
    rw [hsize] at hstop
    contradiction
  | some size =>
    have hcovers := hstands.covers size hsize
    have hstart := hstands.start
    rw [hsize, Option.map_some, Option.some.injEq] at hstop
    omega

end VideoSync.Container
