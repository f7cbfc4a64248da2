import VideoSync.Proofs.Container.Seeks
import VideoSync.Proofs.Storage.Breaks

/-
  Metadata from a source whose failure says that it ends. The 64-bit size of a box and the fields of
  a movie header are read exactly, and there such a failure is the end of the bytes before it. The
  eight bytes that every box starts with are read in another way, which passes any failure on. So a
  source of this kind either breaks off in such a header on the scan, and then reading it fails, or
  it gives exactly what the bytes before its fault give in memory: `readMetadata_io_iff`. A source
  without faults is a special case, however short its reads are: `readMetadata_eq_memory`.
-/

namespace VideoSync.Container

open VideoSync.Storage (Source Failure earlyEnd)

/-- A source whose reads, where they fail, say that it ends. -/
structure EndsEarly (s : Source) : Prop where
  steady : s.Steady
  seeks : s.seekFault = none
  kind : s.readFault ≠ none → s.failure.kind = .unexpectedEnd

theorem endsEarly_of_plain {s : Source} (h : s.Plain) : EndsEarly s :=
  ⟨h.steady, h.seeks, fun hfault => (hfault h.reads).elim⟩

namespace EndsEarly

variable {s : Source} (h : EndsEarly s)
include h

theorem seek_eq (pos : Nat) : s.seek pos = s.cutOff.seek pos := by
  rw [(Source.cutOff_plain s).seek_eq, Source.seek, h.seeks]
  rfl

/-! ## Exact reads -/

/-- An exact read gives what it gives before the fault; a failure is that of too few bytes, but for
its text. -/
theorem exactly_cases (pos wanted : Nat) :
    s.exactly pos wanted = s.cutOff.exactly pos wanted ∨
      ∃ failure : Failure, failure.kind = .unexpectedEnd ∧
        s.exactly pos wanted = .error failure ∧ s.cutOff.exactly pos wanted = .error earlyEnd := by
  rcases h.steady.exactly_cases pos wanted with ⟨hfails, hend, hfault⟩ | hsame
  · exact .inr ⟨s.failure, h.kind hfault, hfails, hend⟩
  · exact .inl hsame

omit h in
theorem earlyEnd_kind : earlyEnd.kind = .unexpectedEnd := rfl

omit h in
theorem ofRead_of_unexpectedEnd {failure : Failure} (hkind : failure.kind = .unexpectedEnd)
    (offset : Nat) (piece : Piece) :
    Error.ofRead offset piece failure = .malformed offset (.truncated piece) := by
  rw [Error.ofRead, if_pos hkind]

theorem readSized_eq (pos : Nat) (bytes : List UInt8) :
    readSized s pos bytes = readSized s.cutOff pos bytes := by
  rcases h.exactly_cases (pos + compactLength) 8 with hsame | ⟨failure, hkind, hfails, hend⟩
  · unfold readSized
    rw [hsame]
  · unfold readSized
    rw [hfails, hend]
    dsimp only
    rw [ofRead_of_unexpectedEnd hkind, ofRead_of_unexpectedEnd earlyEnd_kind]

theorem readField_eq (mvhd : Header) (offset width : Nat) :
    readField s mvhd offset width = readField s.cutOff mvhd offset width := by
  have hbytes : readField.readBytes s offset width =
      readField.readBytes s.cutOff offset width := by
    unfold readField.readBytes
    rw [h.seek_eq]
    rcases h.exactly_cases offset width with hsame | ⟨failure, hkind, hfails, hend⟩
    · rw [hsame]
    · rw [hfails, hend]
      dsimp only
      rw [ofRead_of_unexpectedEnd hkind, ofRead_of_unexpectedEnd earlyEnd_kind]
  unfold readField
  rw [hbytes]

/-- A movie header says what the bytes before the fault say. -/
theorem readMovieHeader_eq (mvhd : Header) :
    readMovieHeader s mvhd = readMovieHeader s.cutOff mvhd := by
  unfold readMovieHeader readCreation readDuration?
  simp only [h.readField_eq]

/-! ## Headers -/

/-- The first eight bytes of a header are not read exactly: a fault in them is a failure. -/
theorem readHeader_eq (pos : Nat) :
    readHeader s pos =
      if s.BreaksIn pos compactLength then .error (.io s.failure)
      else readHeader s.cutOff pos := by
  unfold readHeader
  rw [h.seek_eq, (Source.cutOff_plain s).seek_eq, h.steady.fill_eq]
  by_cases hbreaks : s.BreaksIn pos compactLength
  · rw [if_pos hbreaks, if_pos hbreaks]
  · rw [if_neg hbreaks, if_neg hbreaks]
    simp only [h.readSized_eq]

end EndsEarly

/-- On the scan of a scope for a tag there is a header that the fault cuts off. -/
def BreaksInScan (s : Source) (scope : Scope) (tag : Tag) : Prop :=
  ∃ p ∈ visited s.cutOff scope.stop? tag scope.start, s.BreaksIn p compactLength

/-- The fault cuts off the header of a box that is looked at on the way to the movie header. -/
def BreaksInHeader (s : Source) : Prop :=
  BreaksInScan s .whole .moov ∨
    ∃ moov, find s.cutOff .whole .moov = .ok (some moov) ∧ BreaksInScan s (.body moov) .mvhd

namespace EndsEarly

variable {s : Source} (h : EndsEarly s)
include h

/-- A scan fails if it comes to a header that the fault cuts off, and otherwise finds what is before
the fault. -/
theorem find_cases (scope : Scope) (tag : Tag) :
    (BreaksInScan s scope tag ∧ find s scope tag = .error (.io s.failure)) ∨
      (¬ BreaksInScan s scope tag ∧ find s scope tag = find s.cutOff scope tag) := by
  have hsound := sound_readHeader (Source.cutOff_plain s)
  have hreads : ∀ p, Storage.UnlessFailed (.io s.failure) (readHeader s p)
      (readHeader s.cutOff p) := by
    intro p
    rw [h.readHeader_eq]
    split
    · exact .inl rfl
    · exact .inr rfl
  refine (findFrom_cases hreads scope.stop? tag scope.start).imp ?_ ?_
  · rintro ⟨⟨p, hp, hfails⟩, hfind⟩
    refine ⟨⟨p, hp, ?_⟩, hfind⟩
    by_contra hfits
    rw [h.readHeader_eq, if_neg hfits] at hfails
    exact hsound p _ hfails
  · rintro ⟨hall, hfind⟩
    refine ⟨?_, hfind⟩
    rintro ⟨p, hp, hbreaks⟩
    have hsame := hall p hp
    rw [h.readHeader_eq, if_pos hbreaks] at hsame
    exact hsound p _ hsame.symm

/-- Reading fails if the fault cuts off a header on the way, and otherwise gives what the bytes
before the fault give. -/
theorem readMetadata_cases :
    (BreaksInHeader s ∧ readMetadata s = .error (.io s.failure)) ∨
      (¬ BreaksInHeader s ∧ readMetadata s = readMetadata s.cutOff) := by
  unfold readMetadata BreaksInHeader
  rcases h.find_cases .whole .moov with ⟨hbreaks, hfails⟩ | ⟨hmovie, hsame⟩
  · exact .inl ⟨.inl hbreaks, by rw [hfails]⟩
  rw [hsame]
  rcases hmoov : find s.cutOff .whole .moov with e | _ | moov
  · exact .inr ⟨not_or_intro hmovie nofun, rfl⟩
  · exact .inr ⟨not_or_intro hmovie nofun, rfl⟩
  dsimp only
  rcases h.find_cases (.body moov) .mvhd with ⟨hbreaks, hfails⟩ | ⟨hheader, hsame⟩
  · exact .inl ⟨.inr ⟨moov, rfl, hbreaks⟩, by rw [hfails]⟩
  rw [hsame]
  refine .inr ⟨not_or_intro hmovie ?_, ?_⟩
  · rintro ⟨_, ⟨⟩, hbreaks⟩
    exact hheader hbreaks
  · simp only [h.readMovieHeader_eq]

end EndsEarly

/-! ## Short reads -/

/-- Without faults, the metadata or the error is that of the same bytes in memory, however few bytes
the single reads return. -/
theorem readMetadata_eq_memory {s : Source} (h : s.Plain) :
    readMetadata s = readMetadata (.memory s.bytes) := by
  rcases (endsEarly_of_plain h).readMetadata_cases with ⟨hbreaks, -⟩ | ⟨-, hsame⟩
  · rcases hbreaks with ⟨p, -, hp⟩ | ⟨moov, -, p, -, hp⟩
    · exact (Source.not_breaksIn_of_plain h p _ hp).elim
    · exact (Source.not_breaksIn_of_plain h p _ hp).elim
  · rw [hsame, Source.cutOff_of_plain h]

/-- The sample up to the middle of its last header, one or three bytes at a time. -/
def slowSample : Source where
  bytes := (sample.bytes.take 29).toArray
  grant pos _ := if pos % 2 = 0 then 1 else 3

theorem readMetadata_slowSample :
    slowSample.Plain ∧ readMetadata slowSample = .error (.malformed 24 (.shortHeader 5)) := by
  have hplain : slowSample.Plain := by
    refine ⟨rfl, rfl, fun pos wanted _ => ?_⟩
    unfold slowSample
    dsimp only
    split
    · exact Nat.one_pos
    · exact Nat.succ_pos 2
  refine ⟨hplain, (readMetadata_eq_memory hplain).trans ?_⟩
  decide +kernel

/-! ## Ends that are failures -/

/-- A source whose failure says that it ends gives this failure exactly if the fault cuts off the
header of a box on the way to the movie header. Otherwise it gives what the bytes before the fault
give. -/
theorem readMetadata_io_iff {s : Source} (h : EndsEarly s) :
    ((∃ failure, readMetadata s = .error (.io failure)) ↔ BreaksInHeader s) ∧
      (BreaksInHeader s → readMetadata s = .error (.io s.failure)) ∧
      (¬ BreaksInHeader s → readMetadata s = readMetadata s.cutOff) := by
  rcases h.readMetadata_cases with ⟨hbreaks, hfails⟩ | ⟨hfits, hsame⟩
  · exact ⟨iff_of_true ⟨_, hfails⟩ hbreaks, fun _ => hfails, fun hfits => (hfits hbreaks).elim⟩
  · refine ⟨iff_of_false ?_ hfits, fun hbreaks => (hfits hbreaks).elim, fun _ => hsame⟩
    rintro ⟨failure, hfails⟩
    rw [hsame] at hfails
    exact sound_readMetadata (Source.cutOff_plain s) failure hfails

/-- The sample, from a source whose reads fail from some position on as if it ended there. -/
def breakingSample (fault : Nat) : Source where
  bytes := sample.bytes.toArray
  grant _ _ := 3
  readFault := some fault
  failure := ⟨.unexpectedEnd, "gone"⟩

/-- Inside the creation time the fault is the end of the bytes. -/
theorem readMetadata_of_break_in_field :
    EndsEarly (breakingSample 38) ∧ ¬ BreaksInHeader (breakingSample 38) ∧
      readMetadata (breakingSample 38) = .error (.malformed 36 (.truncated .movieField)) := by
  have hends : EndsEarly (breakingSample 38) :=
    ⟨fun _ _ _ => Nat.succ_pos 2, rfl, fun _ => rfl⟩
  have hread : readMetadata (breakingSample 38) =
      .error (.malformed 36 (.truncated .movieField)) := by decide +kernel
  refine ⟨hends, fun hbreaks => ?_, hread⟩
  have hfails := (readMetadata_io_iff hends).2.1 hbreaks
  rw [hread] at hfails
  contradiction

/-- Inside a header it is a failure, although the same bytes in memory end inside a header. -/
theorem readMetadata_of_break_in_header :
    EndsEarly (breakingSample 4) ∧
      readMetadata (breakingSample 4) = .error (.io ⟨.unexpectedEnd, "gone"⟩) ∧
      readMetadata (breakingSample 4).cutOff = .error (.malformed 0 (.shortHeader 4)) :=
  ⟨⟨fun _ _ _ => Nat.succ_pos 2, rfl, fun _ => rfl⟩, by decide +kernel, by decide +kernel⟩

end VideoSync.Container
