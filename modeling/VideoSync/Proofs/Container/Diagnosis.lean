import VideoSync.Proofs.Container.Arrivals
import VideoSync.Proofs.Container.Seeks

/-
  Why bytes have no readable metadata. Bytes in memory never fail as a source. There is no movie in
  them exactly if complete boxes that are no movie lead to where the bytes have ended, or to a box
  without a size. In every other case something is wrong at some offset: `Fault` says what and
  where, the first box or field on the way that is not as it should be. `readMetadata_error_iff`
  tells the cases apart.
-/

namespace VideoSync.Container

open VideoSync.Storage (Source)

/-! ## Fields of a movie header -/

/-- A span of a movie header is inside the header and all its bytes are there. -/
def FieldAt (s : Source) (mvhd : Header) (span : Span) (value : Nat) : Prop :=
  (∀ stop ∈ mvhd.stop?, mvhd.bodyStart + span.offset + span.width ≤ stop) ∧
    span.width ≤ (s.tail (mvhd.bodyStart + span.offset)).length ∧
    value = bigEndian ((s.tail (mvhd.bodyStart + span.offset)).take span.width)

/-- A span of a movie header that is not there: it goes on behind the header, or the source ends
before it. The offset is that of the field. -/
inductive FieldFault (s : Source) (mvhd : Header) (span : Span) : Nat → Defect → Prop
  | pastEnd {stop : Nat} (hstop : mvhd.stop? = some stop)
      (hlt : stop < mvhd.bodyStart + span.offset + span.width) :
      FieldFault s mvhd span (mvhd.bodyStart + span.offset) (.fieldPastEnd stop)
  | truncated (hinside : ∀ stop ∈ mvhd.stop?, mvhd.bodyStart + span.offset + span.width ≤ stop)
      (hshort : (s.tail (mvhd.bodyStart + span.offset)).length < span.width) :
      FieldFault s mvhd span (mvhd.bodyStart + span.offset) (.truncated .movieField)

/-- The high half of a 64-bit creation time, and the whole of one with 32 bits. -/
def Span.creationHigh : Span := ⟨4, 4⟩

/-- The low half of a 64-bit creation time. -/
def Span.creationLow : Span := ⟨8, 4⟩

/-- What is wrong with the creation time of a movie header with a version: the version is unknown,
or the field is not there, of which a 64-bit one is read in two halves. -/
inductive CreationFault (s : Source) (mvhd : Header) (version : Nat) : Nat → Defect → Prop
  | unsupported (hlt : 1 < version) :
      CreationFault s mvhd version mvhd.bodyStart (.unsupportedVersion version)
  | high {offset : Nat} {defect : Defect} (hle : version ≤ 1)
      (hfault : FieldFault s mvhd .creationHigh offset defect) :
      CreationFault s mvhd version offset defect
  | low {high offset : Nat} {defect : Defect} (hone : version = 1)
      (hhigh : FieldAt s mvhd .creationHigh high)
      (hfault : FieldFault s mvhd .creationLow offset defect) :
      CreationFault s mvhd version offset defect

/-- What is wrong with a movie header: its version is not there, its creation time cannot be read,
or it does not fit into 63 bits. -/
inductive MovieHeaderFault (s : Source) (mvhd : Header) : Nat → Defect → Prop
  | version {offset : Nat} {defect : Defect}
      (hfault : FieldFault s mvhd .version offset defect) : MovieHeaderFault s mvhd offset defect
  | creation {version offset : Nat} {defect : Defect} (hversion : FieldAt s mvhd .version version)
      (hfault : CreationFault s mvhd version offset defect) : MovieHeaderFault s mvhd offset defect
  | outOfRange {version raw : Nat} (hversion : FieldAt s mvhd .version version)
      (hle : version ≤ 1) (hcreation : FieldAt s mvhd (.creation version) raw)
      (hrange : Width.capacity 63 ≤ raw) :
      MovieHeaderFault s mvhd (mvhd.bodyStart + 4) (.creationOutOfRange raw)

variable {s : Source} {mvhd : Header} {value version : Nat} {e : Error}

theorem readField_eq_ok (hs : s.Plain) (span : Span) :
    readField s mvhd (mvhd.bodyStart + span.offset) span.width = .ok value ↔
      FieldAt s mvhd span value :=
  readField_eq_ok_iff hs

theorem readField_eq_error_iff (hs : s.Plain) (span : Span) :
    readField s mvhd (mvhd.bodyStart + span.offset) span.width = .error e ↔
      ∃ offset defect, FieldFault s mvhd span offset defect ∧ e = .malformed offset defect := by
  unfold readField
  rw [readBytes_eq hs]
  constructor
  · intro hread
    have htruncated (hinside : ∀ stop ∈ mvhd.stop?,
        mvhd.bodyStart + span.offset + span.width ≤ stop)
        (heq : (if span.width ≤ (s.tail (mvhd.bodyStart + span.offset)).length then
          .ok (bigEndian ((s.tail (mvhd.bodyStart + span.offset)).take span.width)) else
          .error (.malformed (mvhd.bodyStart + span.offset) (.truncated .movieField))) =
            (.error e : Except Error Nat)) :
        ∃ offset defect, FieldFault s mvhd span offset defect ∧ e = .malformed offset defect := by
      split at heq
      · contradiction
      · next hshort =>
        exact ⟨_, _, .truncated hinside (Nat.not_le.mp hshort), (Except.error.inj heq).symm⟩
    split at hread
    · next stop hstop =>
      split at hread
      · next hlt => exact ⟨_, _, .pastEnd hstop hlt, (Except.error.inj hread).symm⟩
      · next hle =>
        refine htruncated ?_ hread
        rw [hstop]
        rintro _ ⟨⟩
        exact Nat.not_lt.mp hle
    · next hstop =>
      refine htruncated ?_ hread
      rw [hstop]
      nofun
  · intro hfault
    obtain ⟨offset, defect, hfault, rfl⟩ := hfault
    cases hfault with
    | pastEnd hstop hlt =>
      rw [hstop]
      exact if_pos hlt
    | truncated hinside hshort =>
      rw [if_neg (Nat.not_le.mpr hshort)]
      split
      · next stop hstop => rw [if_neg (Nat.not_lt.mpr (hinside stop hstop))]
      · rfl

/-- A 64-bit creation time is read in two halves. -/
theorem readCreation_one (s : Source) (mvhd : Header) :
    readCreation s mvhd 1 =
      match readField s mvhd (mvhd.bodyStart + Span.creationHigh.offset)
        Span.creationHigh.width with
      | .error e => .error e
      | .ok high =>
        (readField s mvhd (mvhd.bodyStart + Span.creationLow.offset) Span.creationLow.width).map
          fun low => high * Width.capacity 32 + low :=
  rfl

theorem readCreation_eq_error_iff (hs : s.Plain) :
    readCreation s mvhd version = .error e ↔
      ∃ offset defect, CreationFault s mvhd version offset defect ∧
        e = .malformed offset defect := by
  have hhigh : readField s mvhd _ _ = .error e ↔ _ :=
    readField_eq_error_iff hs .creationHigh
  constructor
  · intro hread
    match version with
    | 0 =>
      obtain ⟨offset, defect, hfault, he⟩ := hhigh.mp hread
      exact ⟨offset, defect, .high (Nat.zero_le 1) hfault, he⟩
    | 1 =>
      rw [readCreation_one] at hread
      split at hread
      · next heq =>
        rw [hread] at heq
        obtain ⟨offset, defect, hfault, he⟩ := hhigh.mp heq
        exact ⟨offset, defect, .high (Nat.le_refl 1) hfault, he⟩
      · next high heq =>
        obtain ⟨offset, defect, hfault, he⟩ :=
          (readField_eq_error_iff hs .creationLow).mp (eq_error_of_map hread)
        exact ⟨offset, defect, .low rfl ((readField_eq_ok hs .creationHigh).mp heq) hfault, he⟩
    | version + 2 =>
      exact ⟨_, _, .unsupported (by omega), (Except.error.inj hread).symm⟩
  · intro hfault
    obtain ⟨offset, defect, hfault, he⟩ := hfault
    cases hfault with
    | unsupported hlt =>
      subst he
      match version, hlt with
      | version + 2, _ => rfl
    | high hle hfault =>
      have hread := hhigh.mpr ⟨offset, defect, hfault, he⟩
      match version, hle with
      | 0, _ => exact hread
      | 1, _ => rw [readCreation_one, hread]
    | low hone hthere hfault =>
      subst hone
      rw [readCreation_one, (readField_eq_ok hs .creationHigh).mpr hthere]
      dsimp only
      rw [(readField_eq_error_iff hs .creationLow).mpr ⟨offset, defect, hfault, he⟩]
      rfl

theorem readCreation_eq_ok (hs : s.Plain) :
    readCreation s mvhd version = .ok value ↔
      version ≤ 1 ∧ FieldAt s mvhd (.creation version) value := by
  rw [readCreation_eq_ok_iff hs, fieldIn_eq_some_iff, readField_eq_ok hs (.creation version)]

/-- Reading a movie header fails exactly if something is wrong with it. -/
theorem readMovieHeader_eq_error_iff (hs : s.Plain) :
    readMovieHeader s mvhd = .error e ↔
      ∃ offset defect, MovieHeaderFault s mvhd offset defect ∧ e = .malformed offset defect := by
  have hversion : readField s mvhd mvhd.bodyStart 1 = .error e ↔ _ :=
    readField_eq_error_iff hs .version
  unfold readMovieHeader
  constructor
  · intro hread
    split at hread
    · next heq =>
      obtain rfl := Except.error.inj hread
      obtain ⟨offset, defect, hfault, he⟩ := hversion.mp heq
      exact ⟨offset, defect, .version hfault, he⟩
    · next version hthere =>
      have hthere := (readField_eq_ok hs .version).mp hthere
      split at hread
      · next heq =>
        obtain rfl := Except.error.inj hread
        obtain ⟨offset, defect, hfault, he⟩ := (readCreation_eq_error_iff hs).mp heq
        exact ⟨offset, defect, .creation hthere hfault, he⟩
      · next raw hraw =>
        obtain ⟨hle, hcreation⟩ := (readCreation_eq_ok hs).mp hraw
        split at hread
        · next hrange =>
          exact ⟨_, _, .outOfRange hthere hle hcreation hrange, (Except.error.inj hread).symm⟩
        · contradiction
  · intro hfault
    obtain ⟨offset, defect, hfault, he⟩ := hfault
    cases hfault with
    | version hfault => rw [hversion.mpr ⟨offset, defect, hfault, he⟩]
    | @creation version _ _ hthere hfault =>
      have hthere : readField s mvhd mvhd.bodyStart 1 = .ok version :=
        (readField_eq_ok hs .version).mpr hthere
      rw [hthere]
      dsimp only
      rw [(readCreation_eq_error_iff hs).mpr ⟨offset, defect, hfault, he⟩]
    | @outOfRange version raw hthere hle hcreation hrange =>
      have hthere : readField s mvhd mvhd.bodyStart 1 = .ok version :=
        (readField_eq_ok hs .version).mpr hthere
      rw [hthere]
      dsimp only
      rw [(readCreation_eq_ok hs).mpr ⟨hle, hcreation⟩, he]
      exact if_pos hrange

/-! ## Metadata -/

/-- What is wrong with bytes in which a movie is looked for: the first box on the way to the movie
or, in it, to the movie header that is not as it should be, a movie without such a header, or what
is wrong with the header. -/
inductive Fault (s : Source) : Nat → Defect → Prop
  | movie {offset : Nat} {defect : Defect}
      (hscan : Arrives s none .moov 0 (.error (.malformed offset defect))) : Fault s offset defect
  | child {moov : Header} {offset : Nat} {defect : Defect}
      (hmoov : Arrives s none .moov 0 (.ok (some moov)))
      (hscan : Arrives s moov.stop? .mvhd moov.bodyStart (.error (.malformed offset defect))) :
      Fault s offset defect
  | headerless {moov : Header} (hmoov : Arrives s none .moov 0 (.ok (some moov)))
      (hscan : Arrives s moov.stop? .mvhd moov.bodyStart (.ok none)) :
      Fault s moov.start .noMovieHeader
  | header {moov mvhd : Header} {offset : Nat} {defect : Defect}
      (hmoov : Arrives s none .moov 0 (.ok (some moov)))
      (hmvhd : Arrives s moov.stop? .mvhd moov.bodyStart (.ok (some mvhd)))
      (hfault : MovieHeaderFault s mvhd offset defect) : Fault s offset defect

section Metadata

variable (hs : s.Plain) (hb : s.bytes.size < Width.capacity 64)
include hs hb

theorem find_eq_iff (scope : Scope) {tag : Tag} {found : Except Error (Option Header)} :
    find s scope tag = found ↔ Arrives s scope.stop? tag scope.start found :=
  findFrom_eq_iff hs hb

theorem find_ne_notFound (scope : Scope) (tag : Tag) :
    find s scope tag ≠ .error .metadataNotFound :=
  fun hfind => nomatch (find_eq_iff hs hb scope).mp hfind

/-- Only the search for the movie says that there is none. -/
theorem readMetadata_eq_notFound :
    readMetadata s = .error .metadataNotFound ↔ find s .whole .moov = .ok none := by
  unfold readMetadata
  constructor
  · intro hread
    split at hread
    · next hfind =>
      obtain rfl := Except.error.inj hread
      exact absurd hfind (find_ne_notFound hs hb _ _)
    · assumption
    · split at hread
      · next hfind =>
        obtain rfl := Except.error.inj hread
        exact absurd hfind (find_ne_notFound hs hb _ _)
      · cases hread
      · obtain ⟨_, _, -, ⟨⟩⟩ := (readMovieHeader_eq_error_iff hs).mp hread
  · intro hfind
    rw [hfind]

/-- Bytes without a movie are complete boxes that are none, up to their end or to a box without a
size. -/
theorem readMetadata_eq_notFound_iff :
    readMetadata s = .error .metadataNotFound ↔
      ∃ p, Leads s none .moov 0 p ∧
        (s.bytes.size ≤ p ∨ ∃ h, HeaderAt s p h ∧ h.tag ≠ .moov ∧ h.size = none) := by
  rw [readMetadata_eq_notFound hs hb, find_eq_iff hs hb]
  constructor
  · intro harrives
    cases harrives with
    | ended hleads hends =>
      refine ⟨_, hleads, ?_⟩
      cases hends with
      | scope hstop => contradiction
      | source _ hend => exact .inl hend
      | openEnded _ hheader hother hsize => exact .inr ⟨_, hheader, hother, hsize⟩
  · intro hwalk
    obtain ⟨p, hleads, hend | ⟨h, hheader, hother, hsize⟩⟩ := hwalk
    · exact .ended hleads (.source rfl hend)
    · exact .ended hleads (.openEnded (inside_none p) hheader hother hsize)

theorem readMetadata_eq_malformed_iff {offset : Nat} {defect : Defect} :
    readMetadata s = .error (.malformed offset defect) ↔ Fault s offset defect := by
  unfold readMetadata
  constructor
  · intro hread
    split at hread
    · next hfind =>
      obtain rfl := Except.error.inj hread
      exact .movie ((find_eq_iff hs hb .whole).mp hfind)
    · cases hread
    · next moov hmoov =>
      have hmoov := (find_eq_iff hs hb _).mp hmoov
      split at hread
      · next hfind =>
        obtain rfl := Except.error.inj hread
        exact .child hmoov ((find_eq_iff hs hb _).mp hfind)
      · next hfind =>
        obtain ⟨rfl, rfl⟩ := Error.malformed.inj (Except.error.inj hread)
        exact .headerless hmoov ((find_eq_iff hs hb _).mp hfind)
      · next mvhd hmvhd =>
        obtain ⟨_, _, hfault, ⟨⟩⟩ := (readMovieHeader_eq_error_iff hs).mp hread
        exact .header hmoov ((find_eq_iff hs hb _).mp hmvhd) hfault
  · intro hfault
    have hfind (scope : Scope) {tag : Tag} {found : Except Error (Option Header)}
        (harrives : Arrives s scope.stop? tag scope.start found) : find s scope tag = found :=
      (find_eq_iff hs hb scope).mpr harrives
    cases hfault with
    | movie hscan => rw [hfind .whole hscan]
    | @child moov _ _ hmoov hscan =>
      rw [hfind .whole hmoov]
      dsimp only
      rw [hfind (.body moov) hscan]
    | @headerless moov hmoov hscan =>
      rw [hfind .whole hmoov]
      dsimp only
      rw [hfind (.body moov) hscan]
    | @header moov mvhd _ _ hmoov hmvhd hfault =>
      rw [hfind .whole hmoov]
      dsimp only
      rw [hfind (.body moov) hmvhd]
      exact (readMovieHeader_eq_error_iff hs).mpr ⟨_, _, hfault, rfl⟩

end Metadata

/-- Bytes in memory, fewer than `2 ^ 64` of them, never fail to be read. There is no movie in them
exactly if complete boxes that are none, each next one at the end of the box before it, lead to a
position where the bytes have ended or to a box without a size. All other bytes without metadata are
malformed, with the offset and the defect of the first thing that is not as it should be. -/
theorem readMetadata_error_iff (b : Bytes) (hb : b.size < Width.capacity 64) :
    (∀ failure, readMetadata (.memory b) ≠ .error (.io failure)) ∧
    (readMetadata (.memory b) = .error .metadataNotFound ↔
      ∃ p, Leads (.memory b) none .moov 0 p ∧
        (b.size ≤ p ∨ ∃ h, HeaderAt (.memory b) p h ∧ h.tag ≠ .moov ∧ h.size = none)) ∧
    (∀ offset defect, readMetadata (.memory b) = .error (.malformed offset defect) ↔
      Fault (.memory b) offset defect) ∧
    ∀ e, readMetadata (.memory b) = .error e → e ≠ .metadataNotFound →
      ∃ offset defect, e = .malformed offset defect ∧ Fault (.memory b) offset defect := by
  have hs := Source.memory_plain b
  have hsound := sound_readMetadata hs
  refine ⟨hsound, readMetadata_eq_notFound_iff hs hb,
    fun offset defect => readMetadata_eq_malformed_iff hs hb, ?_⟩
  intro e hread hother
  cases e with
  | metadataNotFound => exact absurd rfl hother
  | malformed offset defect =>
    exact ⟨offset, defect, rfl, (readMetadata_eq_malformed_iff hs hb).mp hread⟩
  | io failure => exact absurd hread (hsound failure)

/-- The sample without its last bytes, so that it ends inside the creation time. -/
def cutSample : Bytes := (sample.bytes.take 38).toArray

/-- A box that claims too many bytes leads behind the end, and the creation time of the cut sample
is at fault. -/
theorem fault_cutSample :
    farBox.toArray.size < Width.capacity 64 ∧ cutSample.size < Width.capacity 64 ∧
      (∃ p, Leads (.memory farBox.toArray) none .moov 0 p ∧
        (farBox.toArray.size ≤ p ∨
          ∃ h, HeaderAt (.memory farBox.toArray) p h ∧ h.tag ≠ .moov ∧ h.size = none)) ∧
      Fault (.memory cutSample) 36 (.truncated .movieField) := by
  have hfar : farBox.toArray.size < Width.capacity 64 := by decide +kernel
  have hcut : cutSample.size < Width.capacity 64 := by decide +kernel
  have hread : readMetadata (.memory cutSample) =
      .error (.malformed 36 (.truncated .movieField)) := by decide +kernel
  exact ⟨hfar, hcut, (readMetadata_error_iff _ hfar).2.1.mp readMetadata_of_farBox.1,
    ((readMetadata_error_iff _ hcut).2.2.1 _ _).mp hread⟩

end VideoSync.Container
