import VideoSync.Proofs.Container.Anatomy
import VideoSync.Proofs.Container.Visits

/-
  Metadata from a source that fails. Every stage of the reader gives the failure of the source or
  what it gives without faults; only the duration, where any trouble means that there is none, may
  be lost without a trace. So a fault never changes a creation time and never turns into a missing
  movie or malformed boxes: `readMetadata_of_faults`. Failures that look like the end of the source
  are left out, since an exact read takes these for truncated bytes.
-/

namespace VideoSync.Container

open VideoSync.Storage (Source UnlessFailed)

/-- A source that may fail where another one does not, but not so that it looks like its end. -/
structure Falters (s t : Source) : Prop where
  impairs : s.Impairs t
  kind : s.failure.kind ≠ .unexpectedEnd

namespace Falters

variable {s t : Source}

theorem ofRead_failure (h : Falters s t) (offset : Nat) (piece : Piece) :
    Error.ofRead offset piece s.failure = .io s.failure := by
  rw [Error.ofRead, if_neg h.kind]

/-! ## Boxes -/

theorem readSized (h : Falters s t) (pos : Nat) (bytes : List UInt8) :
    UnlessFailed (.io s.failure) (readSized s pos bytes) (readSized t pos bytes) := by
  unfold Container.readSized
  split
  · dsimp only
    split
    · exact .inr rfl
    · rcases h.impairs.exactly (pos + compactLength) 8 with hfails | hread
      · exact .inl (by rw [hfails]; exact congrArg _ (h.ofRead_failure ..))
      · exact .inr (by rw [hread])
    · exact .inr rfl
  · exact .inr rfl

theorem readHeader (h : Falters s t) (pos : Nat) :
    UnlessFailed (.io s.failure) (readHeader s pos) (readHeader t pos) := by
  unfold Container.readHeader
  rw [h.impairs.plain.seek_eq]
  rcases s.seek_cases pos with hfails | hseek
  · exact .inl (by rw [hfails])
  · rw [hseek]
    rcases h.impairs.fill pos compactLength with hfails | hfill
    · exact .inl (by rw [hfails])
    · rw [hfill]
      dsimp only
      split
      · exact .inr rfl
      · exact .inr rfl
      · exact (h.readSized pos _).map some

theorem find (h : Falters s t) (scope : Scope) (tag : Tag) :
    UnlessFailed (.io s.failure) (find s scope tag) (find t scope tag) :=
  (findFrom_cases h.readHeader scope.stop? tag scope.start).imp And.right And.right

/-! ## Fields -/

variable {mvhd : Header} {version : Nat}

theorem readField (h : Falters s t) (mvhd : Header) (offset width : Nat) :
    UnlessFailed (.io s.failure) (readField s mvhd offset width)
      (readField t mvhd offset width) := by
  have hbytes : UnlessFailed (.io s.failure) (readField.readBytes s offset width)
      (readField.readBytes t offset width) := by
    unfold readField.readBytes
    rw [h.impairs.plain.seek_eq]
    rcases s.seek_cases offset with hfails | hseek
    · exact .inl (by rw [hfails])
    · rw [hseek]
      rcases h.impairs.exactly offset width with hfails | hread
      · exact .inl (by rw [hfails]; exact congrArg _ (h.ofRead_failure ..))
      · exact .inr (by rw [hread])
  unfold Container.readField
  split
  · split
    · exact .inr rfl
    · exact hbytes
  · exact hbytes

theorem readCreation (h : Falters s t) (mvhd : Header) (version : Nat) :
    UnlessFailed (.io s.failure) (readCreation s mvhd version) (readCreation t mvhd version) := by
  unfold Container.readCreation
  split
  · exact h.readField ..
  · rcases h.readField mvhd (mvhd.bodyStart + 4) 4 with hfails | hread
    · exact .inl (by rw [hfails])
    · rw [hread]
      split
      · exact .inr rfl
      · exact (h.readField ..).map _
  · exact .inr rfl

theorem fieldIn (h : Falters s t) (mvhd : Header) (span : Span) :
    fieldIn s mvhd span = none ∨ fieldIn s mvhd span = fieldIn t mvhd span := by
  unfold Container.fieldIn
  rcases h.readField mvhd (mvhd.bodyStart + span.offset) span.width with hfails | hread
  · exact .inl (by rw [hfails]; rfl)
  · exact .inr (by rw [hread])

theorem readDuration? (h : Falters s t) (mvhd : Header) (version : Nat) :
    readDuration? s mvhd version = none ∨
      readDuration? s mvhd version = readDuration? t mvhd version := by
  rw [readDuration?_eq, readDuration?_eq]
  rcases h.fieldIn mvhd (.timescale version) with hnone | hsame
  · exact .inl (by rw [hnone]; rfl)
  · rw [hsame]
    cases Container.fieldIn t mvhd (.timescale version) with
    | none => exact .inr rfl
    | some timescale =>
      rw [Option.bind_some, Option.bind_some]
      rcases h.fieldIn mvhd (.duration version) with hnone | hsame
      · exact .inl (by rw [hnone]; rfl)
      · exact .inr (by rw [hsame])

/-! ## Metadata -/

/-- The metadata without the duration, where others are expected. -/
def LosesDuration (actual expected : Except Error Metadata) : Prop :=
  ∃ m, expected = .ok m ∧ actual = .ok { m with duration := none }

theorem readMovieHeader (h : Falters s t) (mvhd : Header) :
    UnlessFailed (.io s.failure) (readMovieHeader s mvhd) (readMovieHeader t mvhd) ∨
      LosesDuration (readMovieHeader s mvhd) (readMovieHeader t mvhd) := by
  unfold Container.readMovieHeader
  rcases h.readField mvhd mvhd.bodyStart 1 with hfails | hversion
  · exact .inl (.inl (by rw [hfails]))
  rw [hversion]
  cases Container.readField t mvhd mvhd.bodyStart 1 with
  | error e => exact .inl (.inr rfl)
  | ok version =>
    dsimp only
    rcases h.readCreation mvhd version with hfails | hcreation
    · exact .inl (.inl (by rw [hfails]))
    rw [hcreation]
    cases Container.readCreation t mvhd version with
    | error e => exact .inl (.inr rfl)
    | ok raw =>
      dsimp only
      split
      · exact .inl (.inr rfl)
      · rcases h.readDuration? mvhd version with hnone | hduration
        · exact .inr ⟨_, rfl, by rw [hnone]⟩
        · exact .inl (.inr (by rw [hduration]))

theorem readMetadata (h : Falters s t) :
    UnlessFailed (.io s.failure) (readMetadata s) (readMetadata t) ∨
      LosesDuration (readMetadata s) (readMetadata t) := by
  unfold Container.readMetadata
  rcases h.find .whole .moov with hfails | hmoov
  · exact .inl (.inl (by rw [hfails]))
  rw [hmoov]
  rcases Container.find t .whole .moov with e | _ | moov
  · exact .inl (.inr rfl)
  · exact .inl (.inr rfl)
  dsimp only
  rcases h.find (.body moov) .mvhd with hfails | hmvhd
  · exact .inl (.inl (by rw [hfails]))
  rw [hmvhd]
  rcases Container.find t (.body moov) .mvhd with e | _ | mvhd
  · exact .inl (.inr rfl)
  · exact .inl (.inr rfl)
  exact h.readMovieHeader mvhd

end Falters

/-- A source that fails gives its failure, what it gives without faults, or the same metadata
without the duration. So a creation time is always the right one, and every other error is there
without faults too. -/
theorem readMetadata_of_faults {s : Source} (hs : s.Steady)
    (hkind : s.failure.kind ≠ .unexpectedEnd) :
    (readMetadata s = .error (.io s.failure) ∨ readMetadata s = readMetadata s.healed ∨
      ∃ m, readMetadata s.healed = .ok m ∧ readMetadata s = .ok { m with duration := none }) ∧
    (∀ m, readMetadata s = .ok m →
      ∃ m', readMetadata s.healed = .ok m' ∧ m'.creation = m.creation) ∧
    ∀ error, readMetadata s = .error error →
      error = .io s.failure ∨ readMetadata s.healed = .error error := by
  have hfalters : Falters s s.healed := ⟨hs.impairs_healed, hkind⟩
  rcases hfalters.readMetadata with (hfails | hsame) | ⟨m, hm, hlost⟩
  · refine ⟨.inl hfails, fun m hm => ?_, fun error herror => .inl ?_⟩
    · rw [hfails] at hm
      contradiction
    · rw [hfails] at herror
      exact (Except.error.inj herror).symm
  · rw [← hsame]
    exact ⟨.inr (.inl rfl), fun m hm => ⟨m, hm, rfl⟩, fun error herror => .inr herror⟩
  · refine ⟨.inr (.inr ⟨m, hm, hlost⟩), fun m' hm' => ⟨m, hm, ?_⟩, fun error herror => ?_⟩
    · rw [hlost] at hm'
      rw [← Except.ok.inj hm']
    · rw [hlost] at herror
      contradiction

/-- The bytes of the sample, read three at a time by a source that fails behind the creation
time. -/
def falteringSample : Source where
  bytes := sample.bytes.toArray
  grant _ _ := 3
  readFault := some 44
  failure := ⟨.interrupted, "signal"⟩

/-- The creation time and whether there is a duration. -/
def summary (read : Except Error Metadata) : Except Error (Int × Bool) :=
  read.map fun m => (m.creation, m.duration.isSome)

theorem falteringSample_undated :
    falteringSample.Steady ∧ falteringSample.failure.kind ≠ .unexpectedEnd ∧
      ∃ m, m.creation = 0 ∧ readMetadata falteringSample.healed = .ok m ∧
        readMetadata falteringSample = .ok { m with duration := none } := by
  have hsteady : falteringSample.Steady := fun _ _ _ => (by decide : 0 < 3)
  have hkind : falteringSample.failure.kind ≠ .unexpectedEnd := by decide
  have hactual : summary (readMetadata falteringSample) = .ok (0, false) := by decide +kernel
  have hsound : summary (readMetadata falteringSample.healed) = .ok (0, true) := by decide +kernel
  refine ⟨hsteady, hkind, ?_⟩
  rcases (readMetadata_of_faults hsteady hkind).1 with hfails | hsame | ⟨m, hm, hlost⟩
  · rw [hfails] at hactual
    contradiction
  · rw [hsame, hsound] at hactual
    contradiction
  · rw [hm] at hsound
    exact ⟨m, congrArg Prod.fst (Except.ok.inj hsound), hm, hlost⟩

end VideoSync.Container
