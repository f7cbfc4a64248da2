import VideoSync.Container.Movie
import VideoSync.Proofs.Container.Grammar

/-
  What a movie header says, given the numbers in its body. A `Span` is a stretch of the body; which
  spans hold the creation time, the timescale and the duration depends on the version. `Yields
  field m` reads the metadata off the numbers that `field` finds in the spans. Reading the movie
  header from a plain source gives what its fields say (`readMovieHeader_eq_ok_iff`); the two
  halves of a 64-bit creation time count as one field.
-/

namespace VideoSync.Container

open VideoSync.Storage (Source)

/-- A stretch of the body of a movie header. -/
structure Span where
  offset : Nat
  width : Nat
  deriving DecidableEq, Repr

namespace Span

/-- Where a span ends. -/
def stop (span : Span) : Nat := span.offset + span.width

/-- Where the version is. -/
def version : Span := ⟨0, 1⟩

/-- Where the creation time is in a header with a version. -/
def creation : (version : Nat) → Span
  | 1 => ⟨4, 8⟩
  | _ => ⟨4, 4⟩

/-- Where the timescale is. -/
def timescale : (version : Nat) → Span
  | 1 => ⟨20, 4⟩
  | _ => ⟨12, 4⟩

/-- Where the duration is. -/
def duration : (version : Nat) → Span
  | 1 => ⟨24, 8⟩
  | _ => ⟨16, 4⟩

theorem version_stop_le (v : Nat) : version.stop ≤ (creation v).stop := by
  unfold creation
  split <;> decide

theorem timescale_stop_le (v : Nat) : (timescale v).stop ≤ (duration v).stop := by
  unfold timescale duration
  split <;> decide

theorem creation_width_pos (v : Nat) : 0 < (creation v).width := by
  unfold creation
  split <;> decide

theorem timescale_width_pos (v : Nat) : 0 < (timescale v).width := by
  unfold timescale
  split <;> decide

theorem duration_width_pos (v : Nat) : 0 < (duration v).width := by
  unfold duration
  split <;> decide

/-- The fields that matter are among the first 32 bytes of the body. -/
theorem duration_stop_le (v : Nat) : (duration v).stop ≤ 32 := by
  unfold duration
  split <;> decide

end Span

/-- The fields give a duration: both are there, the timescale is not zero, and the duration is not
all ones. -/
def GivesDuration (field : Span → Option Nat) (version : Nat) (seconds : Float) : Prop :=
  ∃ timescale duration, field (.timescale version) = some timescale ∧
    field (.duration version) = some duration ∧ timescale ≠ 0 ∧
    duration ≠ Width.capacity (8 * (Span.duration version).width) - 1 ∧
    seconds = Float.ofNat duration / Float.ofNat timescale

/-- The fields give the metadata: the version is known and the creation time fits into 63 bits. -/
def Yields (field : Span → Option Nat) (m : Metadata) : Prop :=
  ∃ version raw, field .version = some version ∧ version ≤ 1 ∧
    field (.creation version) = some raw ∧ raw < Width.capacity 63 ∧
    m.creation = raw - epochShift ∧
    ∀ seconds, m.duration = some seconds ↔ GivesDuration field version seconds

/-- The number that a source holds in a span of a movie header. -/
def fieldIn (s : Source) (mvhd : Header) (span : Span) : Option Nat :=
  (readField s mvhd (mvhd.bodyStart + span.offset) span.width).toOption

variable {s : Source} {mvhd : Header}

theorem readBytes_eq (hs : s.Plain) (offset width : Nat) :
    readField.readBytes s offset width =
      if width ≤ (s.tail offset).length then .ok (bigEndian ((s.tail offset).take width))
      else .error (.malformed offset (.truncated .movieField)) := by
  unfold readField.readBytes
  rw [hs.seek_eq, hs.exactly_eq]
  by_cases hlong : width ≤ (s.tail offset).length
  · rw [if_pos hlong, if_pos hlong]
  · rw [if_neg hlong, if_neg hlong]
    rfl

theorem readField_eq_ok_iff (hs : s.Plain) {offset width value : Nat} :
    readField s mvhd offset width = .ok value ↔
      (∀ stop ∈ mvhd.stop?, offset + width ≤ stop) ∧ width ≤ (s.tail offset).length ∧
        value = bigEndian ((s.tail offset).take width) := by
  have hbytes : readField.readBytes s offset width = .ok value ↔
      width ≤ (s.tail offset).length ∧ value = bigEndian ((s.tail offset).take width) := by
    rw [readBytes_eq hs]
    split
    · next hlong => simp [hlong, eq_comm]
    · next hshort => simp [hshort]
  unfold readField
  cases hstop : mvhd.stop? with
  | none =>
    dsimp only
    rw [hbytes]
    simp
  | some stop =>
    have hinside : (∀ e ∈ some stop, offset + width ≤ e) ↔ offset + width ≤ stop := by simp
    dsimp only
    rw [hinside]
    by_cases hpast : stop < offset + width
    · rw [if_pos hpast]
      constructor
      · exact fun heq => nomatch heq
      · intro hold
        obtain ⟨hle, -⟩ := hold
        omega
    · rw [if_neg hpast, hbytes]
      exact ⟨fun h => ⟨by omega, h⟩, fun h => h.2⟩

/-- A field that is read lies in the source. -/
theorem stop_le_of_readField (hs : s.Plain) {offset width value : Nat} (hwidth : 0 < width)
    (h : readField s mvhd offset width = .ok value) : offset + width ≤ s.bytes.size := by
  have hlong := ((readField_eq_ok_iff hs).mp h).2.1
  rw [Source.length_tail] at hlong
  omega

theorem fieldIn_eq_some_iff {span : Span} {value : Nat} :
    fieldIn s mvhd span = some value ↔
      readField s mvhd (mvhd.bodyStart + span.offset) span.width = .ok value := by
  unfold fieldIn
  cases readField s mvhd (mvhd.bodyStart + span.offset) span.width with
  | error e => exact ⟨nofun, nofun⟩
  | ok v => exact ⟨fun h => congrArg _ (Option.some.inj h), fun h => congrArg _ (Except.ok.inj h)⟩

/-- A field of eight bytes is two fields of four, the high half first. -/
theorem readField_halves (hs : s.Plain) {offset value : Nat} :
    readField s mvhd offset 8 = .ok value ↔
      ∃ high low, readField s mvhd offset 4 = .ok high ∧
        readField s mvhd (offset + 4) 4 = .ok low ∧ value = high * Width.capacity 32 + low := by
  have htake : (s.tail offset).take 8 =
      (s.tail offset).take 4 ++ (s.tail (offset + 4)).take 4 := by
    rw [Source.tail_add, ← List.take_add]
  have hlength : (s.tail (offset + 4)).length = (s.tail offset).length - 4 := by
    rw [Source.tail_add, List.length_drop]
  have hnumber (hlong : 8 ≤ (s.tail offset).length) : bigEndian ((s.tail offset).take 8) =
      bigEndian ((s.tail offset).take 4) * Width.capacity 32 +
        bigEndian ((s.tail (offset + 4)).take 4) := by
    rw [htake, bigEndian_append, List.length_take_of_le (by omega)]
    rfl
  simp only [readField_eq_ok_iff hs]
  constructor
  · intro hhalves
    obtain ⟨hinside, hlong, rfl⟩ := hhalves
    refine ⟨_, _, ⟨fun stop hstop => ?_, by omega, rfl⟩, ⟨fun stop hstop => ?_, by omega, rfl⟩,
      hnumber hlong⟩
    · have hle := hinside stop hstop
      omega
    · have hle := hinside stop hstop
      omega
  · intro hhalves
    obtain ⟨high, low, ⟨-, -, rfl⟩, ⟨hinside, hlong, rfl⟩, rfl⟩ := hhalves
    refine ⟨fun stop hstop => ?_, by omega, (hnumber (by omega)).symm⟩
    have hle := hinside stop hstop
    omega

theorem readCreation_eq_ok_iff (hs : s.Plain) {version raw : Nat} :
    readCreation s mvhd version = .ok raw ↔
      version ≤ 1 ∧ fieldIn s mvhd (.creation version) = some raw := by
  rw [fieldIn_eq_some_iff]
  match version with
  | 0 => exact ⟨fun h => ⟨Nat.zero_le 1, h⟩, fun h => h.2⟩
  | 1 =>
    have hfield : readField s mvhd (mvhd.bodyStart + 4) 8 = .ok raw ↔
        readCreation s mvhd 1 = .ok raw := by
      rw [readField_halves hs, readCreation, Nat.add_assoc]
      cases readField s mvhd (mvhd.bodyStart + 4) 4 with
      | error e => simp
      | ok high =>
        cases readField s mvhd (mvhd.bodyStart + 8) 4 with
        | error e => simp [Except.map]
        | ok low => simp [Except.map, eq_comm]
    exact ⟨fun h => ⟨Nat.le_refl 1, hfield.mpr h⟩, fun h => hfield.mp h.2⟩
  | version + 2 => exact ⟨nofun, fun h => absurd h.1 (by omega)⟩

theorem durationOf_eq_some_iff {width timescale duration : Nat} {seconds : Float} :
    durationOf width timescale duration = some seconds ↔
      timescale ≠ 0 ∧ duration ≠ Width.capacity (8 * width) - 1 ∧
        seconds = Float.ofNat duration / Float.ofNat timescale := by
  unfold durationOf
  split
  · next hunknown =>
    constructor
    · nofun
    · intro hgives
      obtain ⟨htimescale, hduration, -⟩ := hgives
      exact (hunknown.elim hduration htimescale).elim
  · next hknown =>
    rw [not_or] at hknown
    simp [hknown, eq_comm]

/-- The spans are those that the reader looks at. -/
theorem readDuration?_eq (s : Source) (mvhd : Header) (version : Nat) :
    readDuration? s mvhd version =
      (fieldIn s mvhd (.timescale version)).bind fun timescale =>
        (fieldIn s mvhd (.duration version)).bind fun duration =>
          durationOf (Span.duration version).width timescale duration := by
  have hspans : ∃ timescaleAt durationAt width, Span.timescale version = ⟨timescaleAt, 4⟩ ∧
      Span.duration version = ⟨durationAt, width⟩ ∧
      (if version = 1 then (20, 24, 8) else (12, 16, 4)) = (timescaleAt, durationAt, width) := by
    match version with
    | 0 => exact ⟨12, 16, 4, rfl, rfl, rfl⟩
    | 1 => exact ⟨20, 24, 8, rfl, rfl, rfl⟩
    | version + 2 => exact ⟨12, 16, 4, rfl, rfl, rfl⟩
  obtain ⟨timescaleAt, durationAt, width, htimescale, hduration, hspans⟩ := hspans
  unfold readDuration? fieldIn
  rw [hspans, htimescale, hduration]
  dsimp only
  cases readField s mvhd (mvhd.bodyStart + timescaleAt) 4 with
  | error e => rfl
  | ok timescale =>
    cases readField s mvhd (mvhd.bodyStart + durationAt) width with
    | error e => rfl
    | ok duration => rfl

theorem readDuration?_eq_some_iff {version : Nat} {seconds : Float} :
    readDuration? s mvhd version = some seconds ↔
      GivesDuration (fieldIn s mvhd) version seconds := by
  rw [readDuration?_eq]
  unfold GivesDuration
  simp only [Option.bind_eq_some_iff, durationOf_eq_some_iff]
  constructor
  · intro hbind
    obtain ⟨timescale, ht, duration, hd, h⟩ := hbind
    exact ⟨timescale, duration, ht, hd, h⟩
  · intro hgives
    obtain ⟨timescale, duration, ht, hd, h⟩ := hgives
    exact ⟨timescale, ht, duration, hd, h⟩

/-- Reading a movie header gives what its fields say. -/
theorem readMovieHeader_eq_ok_iff (hs : s.Plain) {m : Metadata} :
    readMovieHeader s mvhd = .ok m ↔ Yields (fieldIn s mvhd) m := by
  unfold readMovieHeader
  constructor
  · intro hread
    split at hread
    · contradiction
    · next version hversion =>
      split at hread
      · contradiction
      · next raw hraw =>
        split at hread
        · contradiction
        · next hrange =>
          obtain rfl := Except.ok.inj hread
          obtain ⟨hle, hfield⟩ := (readCreation_eq_ok_iff hs).mp hraw
          exact ⟨version, raw, fieldIn_eq_some_iff.mpr hversion, hle, hfield,
            Nat.not_le.mp hrange, rfl, fun _ => readDuration?_eq_some_iff⟩
  · intro hyields
    obtain ⟨version, raw, hversion, hle, hfield, hrange, hcreation, hduration⟩ := hyields
    have hread : readField s mvhd mvhd.bodyStart 1 = .ok version :=
      fieldIn_eq_some_iff.mp hversion
    have hraw := (readCreation_eq_ok_iff hs).mpr ⟨hle, hfield⟩
    have heq : m.duration = readDuration? s mvhd version :=
      Option.ext fun seconds => (hduration seconds).trans readDuration?_eq_some_iff.symm
    rw [hread]
    dsimp only
    rw [hraw]
    dsimp only
    rw [if_neg (Nat.not_le.mpr hrange), ← heq, ← hcreation]

/-- Reading metadata is finding a movie, in it a movie header, and taking what its fields say. -/
theorem readMetadata_eq_ok_iff (hs : s.Plain) {m : Metadata} :
    readMetadata s = .ok m ↔
      ∃ moov mvhd, find s .whole .moov = .ok (some moov) ∧
        find s (.body moov) .mvhd = .ok (some mvhd) ∧ Yields (fieldIn s mvhd) m := by
  unfold readMetadata
  constructor
  · intro hread
    split at hread
    · contradiction
    · contradiction
    · next moov hmoov =>
      split at hread
      · contradiction
      · contradiction
      · next mvhd hmvhd =>
        exact ⟨moov, mvhd, hmoov, hmvhd, (readMovieHeader_eq_ok_iff hs).mp hread⟩
  · intro hfound
    obtain ⟨moov, mvhd, hmoov, hmvhd, hyields⟩ := hfound
    rw [hmoov]
    dsimp only
    rw [hmvhd]
    exact (readMovieHeader_eq_ok_iff hs).mpr hyields

end VideoSync.Container
