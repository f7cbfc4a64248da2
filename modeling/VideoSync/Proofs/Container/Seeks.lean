import VideoSync.Proofs.Container.Faults

/-
  Metadata of a file and of the same bytes in memory. A file cannot be asked to move to an offset
  from some bound on, while bytes in memory can. Both readers give the same as long as the reader of
  the bytes in memory is only sent to offsets below the bound (`SeeksBelow`), and otherwise reading
  the file fails: `readMetadata_file_eq_iff`. Bytes that send the reader farther are easily made, as
  the size of a box that is skipped may be any number of 64 bits: `readMetadata_of_farBox`.
-/

namespace VideoSync.Container

open VideoSync.Storage (Source SystemFailure Failure)

/-! ## Plain sources do not fail -/

/-- A result that is no failure of the source. -/
def Sound {α : Type} (result : Except Error α) : Prop :=
  ∀ failure, result ≠ .error (.io failure)

theorem Sound.ok {α : Type} (a : α) : Sound (.ok a) := nofun

theorem Sound.metadataNotFound {α : Type} :
    Sound (.error .metadataNotFound : Except Error α) := nofun

theorem Sound.malformed {α : Type} (offset : Nat) (defect : Defect) :
    Sound (.error (.malformed offset defect) : Except Error α) := nofun

theorem Sound.map {α β : Type} {result : Except Error α} (h : Sound result) (f : α → β) :
    Sound (result.map f) := by
  cases result with
  | error e => exact fun failure heq => h failure (congrArg _ (Except.error.inj heq))
  | ok a => exact nofun

theorem Sound.of_error {α β : Type} {result : Except Error α} {e : Error} (h : Sound result)
    (heq : result = .error e) : Sound (.error e : Except Error β) := fun failure he =>
  h failure (heq.trans (congrArg _ (Except.error.inj he)))

theorem sound_checked (h : Header) : Sound h.checked := by
  unfold Header.checked
  split
  · split
    · exact .malformed _ _
    · exact .ok h
  · exact .ok h

section Plain

variable {t : Source} (ht : t.Plain)
include ht

theorem sound_readSized (pos : Nat) (bytes : List UInt8) : Sound (readSized t pos bytes) := by
  unfold readSized
  split
  · dsimp only
    split
    · exact .ok _
    · rw [ht.exactly_eq]
      split
      · next heq =>
        split at heq
        · contradiction
        · obtain rfl := Except.error.inj heq
          exact .malformed _ _
      · exact sound_checked _
    · exact sound_checked _
  · exact .malformed _ _

theorem sound_readHeader (pos : Nat) : Sound (readHeader t pos) := by
  unfold readHeader
  rw [ht.seek_eq, ht.fill_eq]
  dsimp only
  split
  · contradiction
  · exact .ok none
  · exact (sound_readSized ht pos _).map some

theorem sound_nextHeader (stop? : Option Nat) (pos : Nat) : Sound (nextHeader t stop? pos) := by
  unfold nextHeader
  split
  · next heq => exact (sound_readHeader ht pos).of_error heq
  · split
    · exact .malformed _ _
    · exact .ok none
  · split
    · split
      · exact .malformed _ _
      · exact .ok _
    · exact .ok _

theorem sound_findFrom (stop? : Option Nat) (tag : Tag) (pos : Nat) :
    Sound (findFrom t stop? tag pos) := by
  fun_induction visited t stop? tag pos with
  | case1 pos hstop =>
    rw [findFrom, if_pos hstop]
    exact .ok none
  | case2 pos hstop hnone =>
    rw [findFrom_eq hstop, hnone]
    dsimp only
    cases hnext : nextHeader t stop? pos with
    | error e => exact (sound_nextHeader ht stop? pos).of_error hnext
    | ok h? =>
      cases h? with
      | none => exact .ok none
      | some h => exact .ok _
  | case3 pos hstop next hnext ih =>
    rw [findFrom_eq hstop, hnext]
    exact ih

theorem sound_readField (mvhd : Header) (offset width : Nat) :
    Sound (readField t mvhd offset width) := by
  have hbytes : Sound (readField.readBytes t offset width) := by
    rw [readBytes_eq ht]
    split
    · exact .ok _
    · exact .malformed _ _
  unfold readField
  split
  · split
    · exact .malformed _ _
    · exact hbytes
  · exact hbytes

theorem sound_readCreation (mvhd : Header) (version : Nat) :
    Sound (readCreation t mvhd version) := by
  unfold readCreation
  split
  · exact sound_readField ht _ _ _
  · split
    · next heq => exact (sound_readField ht _ _ _).of_error heq
    · exact (sound_readField ht _ _ _).map _
  · exact .malformed _ _

theorem sound_readMetadata : Sound (readMetadata t) := by
  unfold readMetadata
  split
  · next heq => exact (sound_findFrom ht _ _ _).of_error heq
  · exact .metadataNotFound
  · split
    · next heq => exact (sound_findFrom ht _ _ _).of_error heq
    · exact .malformed _ _
    · unfold readMovieHeader
      split
      · next heq => exact (sound_readField ht _ _ _).of_error heq
      · split
        · next heq => exact (sound_readCreation ht _ _).of_error heq
        · split
          · exact .malformed _ _
          · exact .ok _

end Plain

/-! ## Files -/

/-- What a file answers that is asked to move too far. -/
def tooFar : Error := .io SystemFailure.invalidArgument.failure

variable {b : Bytes} {bound : Nat}

theorem file_falters (b : Bytes) (bound : Nat) : Falters (.file b bound) (.memory b) where
  impairs := ⟨fun _ _ hwanted => hwanted, Source.memory_plain b, rfl⟩
  kind := nofun

theorem seek_file (pos : Nat) :
    (Source.file b bound).seek pos =
      if bound ≤ pos then .error SystemFailure.invalidArgument.failure else .ok () := by
  simp [Source.seek, Source.file]

/-- Headers of a file are those of its bytes, up to the bound. -/
theorem readHeader_file (pos : Nat) :
    readHeader (.file b bound) pos =
      if bound ≤ pos then .error tooFar else readHeader (.memory b) pos := by
  have h := (file_falters b bound).impairs
  have hsized (bytes : List UInt8) :
      readSized (.file b bound) pos bytes = readSized (.memory b) pos bytes := by
    unfold readSized
    rw [h.exactly_eq rfl]
  unfold readHeader
  rw [seek_file, (Source.memory_plain b).seek_eq]
  by_cases hle : bound ≤ pos
  · rw [if_pos hle, if_pos hle]
    rfl
  · rw [if_neg hle, if_neg hle, h.fill_eq rfl]
    simp only [hsized]

/-- A scan of a file fails if it visits a position from the bound on, and otherwise finds what is
in its bytes. -/
theorem find_file_cases (b : Bytes) (bound : Nat) (scope : Scope) (tag : Tag) :
    ((∃ p ∈ visited (.memory b) scope.stop? tag scope.start, bound ≤ p) ∧
        find (.file b bound) scope tag = .error tooFar) ∨
      ((∀ p ∈ visited (.memory b) scope.stop? tag scope.start, p < bound) ∧
        find (.file b bound) scope tag = find (.memory b) scope tag) := by
  have hsound := sound_readHeader (Source.memory_plain b)
  refine (findFrom_cases (file_falters b bound).readHeader scope.stop? tag scope.start).imp ?_ ?_
  · rintro ⟨⟨p, hp, hfails⟩, hfind⟩
    refine ⟨⟨p, hp, ?_⟩, hfind⟩
    by_contra hlt
    rw [readHeader_file, if_neg hlt] at hfails
    exact hsound p _ hfails
  · rintro ⟨hall, hfind⟩
    refine ⟨fun p hp => Nat.lt_of_not_le fun hle => ?_, hfind⟩
    have hsame := hall p hp
    rw [readHeader_file, if_pos hle] at hsame
    exact hsound p _ hsame.symm

/-! ## Movie headers of files -/

variable {mvhd : Header}

/-- A field of a movie header that a file cannot be asked to move to: it lies in the header and
starts at the bound or beyond it. -/
def OutOfReach (bound : Nat) (mvhd : Header) (offset width : Nat) : Prop :=
  bound ≤ offset ∧ ∀ stop ∈ mvhd.stop?, offset + width ≤ stop

instance (offset width : Nat) : Decidable (OutOfReach bound mvhd offset width) :=
  inferInstanceAs (Decidable (_ ∧ _))

theorem readField_file (offset width : Nat) :
    readField (.file b bound) mvhd offset width =
      if OutOfReach bound mvhd offset width then .error tooFar
      else readField (.memory b) mvhd offset width := by
  have hbytes : readField.readBytes (.file b bound) offset width =
      if bound ≤ offset then .error tooFar else readField.readBytes (.memory b) offset width := by
    unfold readField.readBytes
    rw [seek_file, (Source.memory_plain b).seek_eq,
      (file_falters b bound).impairs.exactly_eq rfl]
    by_cases hle : bound ≤ offset
    · rw [if_pos hle, if_pos hle]
      rfl
    · rw [if_neg hle, if_neg hle]
  unfold readField
  by_cases hfar : OutOfReach bound mvhd offset width
  · obtain ⟨hle, hinside⟩ := id hfar
    rw [if_pos hfar, hbytes, if_pos hle]
    split
    · next stop hstop => rw [if_neg (Nat.not_lt.mpr (hinside stop hstop))]
    · rfl
  · rw [if_neg hfar, hbytes]
    split
    · next stop hstop =>
      split
      · rfl
      · next hinside =>
        have hlt : ¬ bound ≤ offset := by
          refine fun hle => hfar ⟨hle, ?_⟩
          rw [hstop]
          rintro _ ⟨⟩
          exact Nat.not_lt.mp hinside
        rw [if_neg hlt]
    · next hstop =>
      have hlt : ¬ bound ≤ offset := by
        refine fun hle => hfar ⟨hle, ?_⟩
        rw [hstop]
        nofun
      rw [if_neg hlt]

/-- A field that starts below the bound is the same in the file. -/
theorem readField_file_of_lt {offset : Nat} (hlt : offset < bound) (width : Nat) :
    readField (.file b bound) mvhd offset width = readField (.memory b) mvhd offset width := by
  rw [readField_file, if_neg fun hfar => Nat.not_le.mpr hlt hfar.1]

/-- Whether a field can be read does not depend on the bound. -/
theorem fieldIn_file (hb : b.size < bound) {span : Span} (hwidth : 0 < span.width) :
    fieldIn (.file b bound) mvhd span = fieldIn (.memory b) mvhd span := by
  unfold fieldIn
  rw [readField_file]
  split
  · next hfar =>
    cases hread : readField (.memory b) mvhd (mvhd.bodyStart + span.offset) span.width with
    | error e => rfl
    | ok value =>
      have hstop : _ ≤ b.size := stop_le_of_readField (Source.memory_plain b) hwidth hread
      have hfar := hfar.1
      omega
  · rfl

theorem readDuration?_file (hb : b.size < bound) (version : Nat) :
    readDuration? (.file b bound) mvhd version = readDuration? (.memory b) mvhd version := by
  rw [readDuration?_eq, readDuration?_eq, fieldIn_file hb (Span.timescale_width_pos version),
    fieldIn_file hb (Span.duration_width_pos version)]

/-- The creation time of a movie header is to be read, but cannot be reached in a file. -/
def HidesCreation (bound : Nat) (b : Bytes) (mvhd : Header) : Prop :=
  ∃ version ≤ 1, readField (.memory b) mvhd mvhd.bodyStart 1 = .ok version ∧
    OutOfReach bound mvhd (mvhd.bodyStart + 4) 4

theorem readCreation_file_of_outOfReach {version : Nat} (hversion : version ≤ 1)
    (hfar : OutOfReach bound mvhd (mvhd.bodyStart + 4) 4) :
    readCreation (.file b bound) mvhd version = .error tooFar := by
  have hfirst := (readField_file (b := b) (mvhd.bodyStart + 4) 4).trans (if_pos hfar)
  match version with
  | 0 => exact hfirst
  | 1 => rw [readCreation, hfirst]

theorem readCreation_file (hb : b.size < bound) {version : Nat}
    (hnear : version ≤ 1 → ¬ OutOfReach bound mvhd (mvhd.bodyStart + 4) 4) :
    readCreation (.file b bound) mvhd version = readCreation (.memory b) mvhd version := by
  match version with
  | 0 => exact (readField_file (mvhd.bodyStart + 4) 4).trans (if_neg (hnear (by omega)))
  | 1 =>
    rw [readCreation, readCreation, readField_file, if_neg (hnear (by omega))]
    cases hhigh : readField (.memory b) mvhd (mvhd.bodyStart + 4) 4 with
    | error e => rfl
    | ok high =>
      -- the high half is there, so that the low one starts in the bytes or at their end
      have hstop : _ ≤ b.size :=
        stop_le_of_readField (Source.memory_plain b) (Nat.succ_pos 3) hhigh
      dsimp only
      rw [readField_file_of_lt (by omega)]
  | version + 2 => rfl

/-- A movie header fails to be read from a file if its creation time cannot be reached, and
otherwise says what it says in memory. -/
theorem readMovieHeader_file (hb : b.size < bound) (hbody : mvhd.bodyStart ≤ b.size) :
    (HidesCreation bound b mvhd ∧ readMovieHeader (.file b bound) mvhd = .error tooFar) ∨
      (¬ HidesCreation bound b mvhd ∧
        readMovieHeader (.file b bound) mvhd = readMovieHeader (.memory b) mvhd) := by
  have hversion : readField (.file b bound) mvhd mvhd.bodyStart 1 =
      readField (.memory b) mvhd mvhd.bodyStart 1 :=
    readField_file_of_lt (Nat.lt_of_le_of_lt hbody hb) 1
  by_cases hhides : HidesCreation bound b mvhd
  · obtain ⟨version, hle, hread, hfar⟩ := id hhides
    refine .inl ⟨hhides, ?_⟩
    rw [readMovieHeader, hversion, hread]
    dsimp only
    rw [readCreation_file_of_outOfReach hle hfar]
  · refine .inr ⟨hhides, ?_⟩
    rw [readMovieHeader, readMovieHeader, hversion]
    cases hread : readField (.memory b) mvhd mvhd.bodyStart 1 with
    | error e => rfl
    | ok version =>
      have hnear : version ≤ 1 → ¬ OutOfReach bound mvhd (mvhd.bodyStart + 4) 4 :=
        fun hle hfar => hhides ⟨version, hle, hread, hfar⟩
      dsimp only
      rw [readCreation_file hb hnear, readDuration?_file hb]

/-! ## Metadata of files -/

/-- The reader of bytes in memory is only sent to offsets below a bound: all boxes that it looks at
start there, and so does the creation time if it is to be read. -/
structure SeeksBelow (bound : Nat) (b : Bytes) : Prop where
  movie : ∀ p ∈ visited (.memory b) none .moov 0, p < bound
  header : ∀ moov, find (.memory b) .whole .moov = .ok (some moov) →
    ∀ p ∈ visited (.memory b) moov.stop? .mvhd moov.bodyStart, p < bound
  creation : ∀ moov mvhd, find (.memory b) .whole .moov = .ok (some moov) →
    find (.memory b) (.body moov) .mvhd = .ok (some mvhd) → ¬ HidesCreation bound b mvhd

theorem bodyStart_le_of_find (hb : b.size < Width.capacity 64) {scope : Scope} {tag : Tag}
    {h : Header} (hfind : find (.memory b) scope tag = .ok (some h)) : h.bodyStart ≤ b.size := by
  obtain ⟨_, _, _, hfinds⟩ := (findFrom_eq_some_iff (Source.memory_plain b) hb).mp hfind
  exact hfinds.bodyStart_le

/-- Reading a file fails if the reader is sent too far, and otherwise gives what the bytes in memory
give. -/
theorem readMetadata_file_cases (hb : b.size < bound) (hbound : bound ≤ Width.capacity 64) :
    (¬ SeeksBelow bound b ∧ readMetadata (.file b bound) = .error tooFar) ∨
      (SeeksBelow bound b ∧ readMetadata (.file b bound) = readMetadata (.memory b)) := by
  unfold readMetadata
  rcases find_file_cases b bound .whole .moov with ⟨⟨p, hp, hle⟩, hfile⟩ | ⟨hmovie, hfile⟩
  · exact .inl ⟨fun h => Nat.not_le.mpr (h.movie p hp) hle, by rw [hfile]⟩
  rw [hfile]
  rcases hmoov : find (.memory b) .whole .moov with e | _ | moov
  · exact .inr ⟨⟨hmovie, by rw [hmoov]; nofun, by rw [hmoov]; nofun⟩, rfl⟩
  · exact .inr ⟨⟨hmovie, by rw [hmoov]; nofun, by rw [hmoov]; nofun⟩, rfl⟩
  dsimp only
  rcases find_file_cases b bound (.body moov) .mvhd with ⟨⟨p, hp, hle⟩, hfile⟩ | ⟨hvisited, hfile⟩
  · exact .inl ⟨fun h => Nat.not_le.mpr (h.header moov hmoov p hp) hle, by rw [hfile]⟩
  have hheader : ∀ moov, find (.memory b) .whole .moov = .ok (some moov) →
      ∀ p ∈ visited (.memory b) moov.stop? .mvhd moov.bodyStart, p < bound := by
    rw [hmoov]
    rintro _ ⟨⟩
    exact hvisited
  rw [hfile]
  rcases hmvhd : find (.memory b) (.body moov) .mvhd with e | _ | mvhd
  · exact .inr ⟨⟨hmovie, hheader, by rw [hmoov]; rintro _ _ ⟨⟩; rw [hmvhd]; nofun⟩, rfl⟩
  · exact .inr ⟨⟨hmovie, hheader, by rw [hmoov]; rintro _ _ ⟨⟩; rw [hmvhd]; nofun⟩, rfl⟩
  dsimp only
  have hbody := bodyStart_le_of_find (Nat.lt_of_lt_of_le hb hbound) hmvhd
  rcases readMovieHeader_file hb hbody with ⟨hhides, hfails⟩ | ⟨hreaches, hsame⟩
  · exact .inl ⟨fun h => h.creation moov mvhd hmoov hmvhd hhides, hfails⟩
  · refine .inr ⟨⟨hmovie, hheader, ?_⟩, hsame⟩
    rw [hmoov]
    rintro _ _ ⟨⟩
    rw [hmvhd]
    rintro ⟨⟩
    exact hreaches

/-- A file and the same bytes in memory give the same metadata, or the same error, exactly if the
reader of the bytes is only sent to offsets that the file can be asked to move to. Otherwise reading
the file fails. -/
theorem readMetadata_file_eq_iff (hb : b.size < bound) (hbound : bound ≤ Width.capacity 64) :
    (readMetadata (.file b bound) = readMetadata (.memory b) ↔ SeeksBelow bound b) ∧
      (¬ SeeksBelow bound b → readMetadata (.file b bound) = .error tooFar) := by
  rcases readMetadata_file_cases hb hbound with ⟨hfar, hfails⟩ | ⟨hnear, hsame⟩
  · refine ⟨⟨fun heq => ?_, fun h => (hfar h).elim⟩, fun _ => hfails⟩
    rw [hfails] at heq
    exact (sound_readMetadata (Source.memory_plain b) _ heq.symm).elim
  · exact ⟨iff_of_true hsame hnear, fun hfar => (hfar hnear).elim⟩

/-- The bytes of the sample are read alike. -/
theorem readMetadata_file_sample :
    readMetadata (.file sample.bytes.toArray (Width.capacity 63)) =
      readMetadata (.memory sample.bytes.toArray) := by
  have hsize : sample.bytes.toArray.size < Width.capacity 63 := by decide +kernel
  have hcapacity : Width.capacity 63 ≤ Width.capacity 64 := by decide +kernel
  have hread : summary (readMetadata (.file sample.bytes.toArray (Width.capacity 63))) =
      .ok (0, true) := by decide +kernel
  refine (readMetadata_file_eq_iff hsize hcapacity).1.mpr ?_
  by_contra hfar
  rw [(readMetadata_file_eq_iff hsize hcapacity).2 hfar] at hread
  contradiction

/-- A box that is skipped and claims to have 2 ^ 63 bytes. -/
def farBox : List UInt8 :=
  [0x00, 0x00, 0x00, 0x01, 0x66, 0x72, 0x65, 0x65, 0x80, 0x00, 0x00, 0x00, 0x00, 0x00, 0x00, 0x00]

/-- In memory there is no movie after it, while a file cannot be asked to move to its end. -/
theorem readMetadata_of_farBox :
    readMetadata (.memory farBox.toArray) = .error .metadataNotFound ∧
      readMetadata (.file farBox.toArray (Width.capacity 63)) =
        .error (.io SystemFailure.invalidArgument.failure) := by
  decide +kernel

end VideoSync.Container
