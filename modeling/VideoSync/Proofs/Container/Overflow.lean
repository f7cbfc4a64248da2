import VideoSync.Container.Movie
import VideoSync.Proofs.Container.Extents
import VideoSync.Timeline.Alignment

/-
  The reader in 64-bit arithmetic. The functions of this module are those of the library with every
  sum and difference tried in 64 bits: they give nothing where one overflows. Only the end of a box
  is no such sum, since it saturates. Reading any source of fewer than 2 ^ 63 bytes never overflows,
  and neither does aligning what was read with a session that starts late enough and early enough:
  `arithmetic_fits`.

  Offsets that are added to come from headers that stand in the source (`StandsAt`), so that they
  are small however large the sizes are that the headers declare.
-/

namespace VideoSync.Container

open VideoSync.Storage (Source)
open VideoSync.Timeline (Session align)
open VideoSync.Width (capacity_63 capacity_64)

/-! ## 64-bit numbers -/

/-- A sum of numbers without sign, if it has 64 bits. -/
def sum64? (a b : Nat) : Option Nat := if a + b < Width.capacity 64 then some (a + b) else none

/-- A difference of numbers with a sign, if it has 64 bits. -/
def difference64? (a b : Int) : Option Int :=
  if Width.signed 64 (a - b) then some (a - b) else none

/-- Offset of the first body byte. -/
def Header.bodyStart64? (h : Header) : Option Nat := sum64? h.start h.length

/-! ## Boxes -/

/-- The header that starts with eight given bytes; a 64-bit size is read behind them. -/
def readSized64? (s : Source) (pos : Nat) (bytes : List UInt8) : Option (Except Error Header) :=
  match bytes with
  | [a, b, c, d, t0, t1, t2, t3] =>
    let tag : Tag := ⟨t0, t1, t2, t3⟩
    match bigEndian [a, b, c, d] with
    | 0 => some (.ok ⟨tag, pos, compactLength, none⟩)
    | 1 => (sum64? pos compactLength).map fun behind =>
      match s.exactly behind 8 with
      | .error e => .error (.ofRead behind .extendedSize e)
      | .ok ext => Header.checked ⟨tag, pos, extendedLength, some (bigEndian ext)⟩
    | size => some (Header.checked ⟨tag, pos, compactLength, some size⟩)
  | _ => some (.error (.malformed pos (.shortHeader bytes.length)))

/-- The header at a position, or nothing where the source ends. -/
def readHeader64? (s : Source) (pos : Nat) : Option (Except Error (Option Header)) :=
  match s.seek pos with
  | .error e => some (.error (.io e))
  | .ok () =>
    match s.fill pos compactLength with
    | .error e => some (.error (.io e))
    | .ok [] => some (.ok none)
    | .ok bytes => (readSized64? s pos bytes).map (·.map some)

/-- The next header of a scope, which has to end within it. -/
def nextHeader64? (s : Source) (stop? : Option Nat) (pos : Nat) :
    Option (Except Error (Option Header)) :=
  (readHeader64? s pos).map fun
    | .error e => .error e
    | .ok none => if stop?.isSome then .error (.malformed pos .endsInsideParent) else .ok none
    | .ok (some h) =>
      match stop?, h.stop? with
      | some scopeEnd, some boxEnd =>
        if scopeEnd < boxEnd then .error (.malformed pos (.overrunsParent h.tag))
        else .ok (some h)
      | _, _ => .ok (some h)

/-- The first box tagged `tag` from `pos` on. -/
def findFrom64? (s : Source) (stop? : Option Nat) (tag : Tag) (pos : Nat) :
    Option (Except Error (Option Header)) :=
  if stop?.any (· ≤ pos) then some (.ok none)
  else match nextHeader64? s stop? pos with
    | none => none
    | some (.error e) => some (.error e)
    | some (.ok none) => some (.ok none)
    | some (.ok (some h)) =>
      if h.tag = tag then some (.ok (some h))
      else match _ : h.stop? with
        | none => some (.ok none)
        | some next => if pos < next then findFrom64? s stop? tag next else some (.ok none)
termination_by maxOffset - pos
decreasing_by
  have := stop?_le_maxOffset ‹h.stop? = some next›
  omega

/-! ## The movie header -/

/-- The field of `width` bytes at an offset inside the movie header. -/
def readField64? (s : Source) (mvhd : Header) (offset width : Nat) : Option (Except Error Nat) :=
  (sum64? offset width).map fun behind =>
    match mvhd.stop? with
    | some stop =>
      if stop < behind then .error (.malformed offset (.fieldPastEnd stop))
      else readField.readBytes s offset width
    | none => readField.readBytes s offset width

/-- The field of `width` bytes so far behind a base. -/
def fieldBehind64? (s : Source) (mvhd : Header) (base distance width : Nat) :
    Option (Except Error Nat) :=
  (sum64? base distance).bind fun offset => readField64? s mvhd offset width

/-- The creation field, in seconds since 1904. -/
def readCreation64? (s : Source) (mvhd : Header) (base version : Nat) :
    Option (Except Error Nat) :=
  match version with
  | 0 => fieldBehind64? s mvhd base 4 4
  | 1 => (fieldBehind64? s mvhd base 4 4).bind fun
    | .error e => some (.error e)
    | .ok high => (fieldBehind64? s mvhd base 8 4).map fun low =>
      low.map fun low => high * Width.capacity 32 + low
  | _ => some (.error (.malformed base (.unsupportedVersion version)))

/-- The duration in seconds; any trouble with its fields means that there is none. -/
def readDuration64? (s : Source) (mvhd : Header) (base version : Nat) : Option (Option Float) :=
  let (timescaleAt, durationAt, width) := if version = 1 then (20, 24, 8) else (12, 16, 4)
  (fieldBehind64? s mvhd base timescaleAt 4).bind fun
    | .error _ => some none
    | .ok timescale => (fieldBehind64? s mvhd base durationAt width).map fun
      | .error _ => none
      | .ok duration => durationOf width timescale duration

/-- The metadata that a movie header holds. -/
def readMovieHeader64? (s : Source) (mvhd : Header) : Option (Except Error Metadata) :=
  mvhd.bodyStart64?.bind fun base =>
    (readField64? s mvhd base 1).bind fun
      | .error e => some (.error e)
      | .ok version => (readCreation64? s mvhd base version).bind fun
        | .error e => some (.error e)
        | .ok raw =>
          if Width.capacity 63 ≤ raw then
            (sum64? base 4).map fun offset =>
              .error (.malformed offset (.creationOutOfRange raw))
          else
            (difference64? raw epochShift).bind fun creation =>
              (readDuration64? s mvhd base version).map fun duration => .ok ⟨creation, duration⟩

/-- The metadata of a container: the first movie box, in it the first movie header. -/
def readMetadata64? (s : Source) : Option (Except Error Metadata) :=
  (findFrom64? s none .moov 0).bind fun
    | .error e => some (.error e)
    | .ok none => some (.error .metadataNotFound)
    | .ok (some moov) =>
      moov.bodyStart64?.bind fun base => (findFrom64? s moov.stop? .mvhd base).bind fun
        | .error e => some (.error e)
        | .ok none => some (.error (.malformed moov.start .noMovieHeader))
        | .ok (some mvhd) => readMovieHeader64? s mvhd

/-- Aligns a video with a session. -/
def align64? (creation : Int) (duration : Float) (session : Session) :
    Option Timeline.Alignment :=
  (difference64? session.start creation).map fun offset =>
    { align creation duration session with offset := Float.ofInt offset }

/-! ## Nothing overflows -/

variable {s : Source} {mvhd : Header} {pos : Nat}

theorem sum64?_of_lt {a b : Nat} (h : a + b < Width.capacity 64) : sum64? a b = some (a + b) :=
  if_pos h

theorem difference64?_of_signed {a b : Int} (h : Width.signed 64 (a - b)) :
    difference64? a b = some (a - b) :=
  if_pos h

theorem readSized64?_eq (hs : s.bytes.size < Width.capacity 63) {bytes : List UInt8}
    (hbytes : bytes.length ≤ s.bytes.size - pos) :
    readSized64? s pos bytes = some (readSized s pos bytes) := by
  unfold readSized64?
  split
  · next a b c d t0 t1 t2 t3 =>
    have hsum : pos + compactLength < Width.capacity 64 := by
      have hwithin : 8 ≤ s.bytes.size - pos := hbytes
      rw [capacity_63] at hs
      rw [capacity_64, compactLength]
      omega
    unfold readSized
    dsimp only
    generalize bigEndian [a, b, c, d] = size
    rcases size with _ | _ | size
    · rfl
    · rw [sum64?_of_lt hsum]
      rfl
    · rfl
  · next hother =>
    rw [readSized]
    exact hother

theorem readHeader64?_eq (hs : s.bytes.size < Width.capacity 63) (pos : Nat) :
    readHeader64? s pos = some (readHeader s pos) := by
  unfold readHeader64? readHeader
  cases s.seek pos with
  | error e => rfl
  | ok =>
    cases hfill : s.fill pos compactLength with
    | error e => rfl
    | ok bytes =>
      cases bytes with
      | nil => rfl
      | cons b more =>
        dsimp only
        rw [readSized64?_eq hs (Source.length_fill_le_size hfill)]
        rfl

theorem nextHeader64?_eq (hs : s.bytes.size < Width.capacity 63) (stop? : Option Nat) (pos : Nat) :
    nextHeader64? s stop? pos = some (nextHeader s stop? pos) := by
  rw [nextHeader64?, readHeader64?_eq hs]
  rfl

/-- A box with another tag is passed if it ends further on. -/
theorem findFrom64?_of_passed {stop? : Option Nat} {tag : Tag} {h : Header}
    (hany : ¬ stop?.any (· ≤ pos)) (hnext : nextHeader64? s stop? pos = some (.ok (some h)))
    (htag : ¬ h.tag = tag) :
    findFrom64? s stop? tag pos =
      match h.stop? with
      | none => some (.ok none)
      | some next => if pos < next then findFrom64? s stop? tag next else some (.ok none) := by
  rw [findFrom64?, if_neg hany, hnext]
  dsimp only
  rw [if_neg htag]
  split
  · next hnone => rw [hnone]
  · next next hsome => rw [hsome]

theorem findFrom64?_eq (hs : s.bytes.size < Width.capacity 63) (stop? : Option Nat) (tag : Tag)
    (pos : Nat) : findFrom64? s stop? tag pos = some (findFrom s stop? tag pos) := by
  have hheader (pos : Nat) : nextHeader64? s stop? pos = some (nextHeader s stop? pos) :=
    nextHeader64?_eq hs stop? pos
  fun_induction findFrom s stop? tag pos with
  | case1 pos hany => rw [findFrom64?, if_pos hany]
  | case2 pos hany e hnext => rw [findFrom64?, if_neg hany, hheader, hnext]
  | case3 pos hany hnext => rw [findFrom64?, if_neg hany, hheader, hnext]
  | case4 pos hany h hnext htag =>
    rw [findFrom64?, if_neg hany, hheader, hnext]
    exact if_pos htag
  | case5 pos hany h hnext htag hstop =>
    rw [findFrom64?_of_passed hany (by rw [hheader, hnext]) htag, hstop]
  | case6 pos hany h hnext htag next hstop hlt ih =>
    rw [findFrom64?_of_passed hany (by rw [hheader, hnext]) htag, hstop, ← ih]
    exact if_pos hlt
  | case7 pos hany h hnext htag next hstop hlt =>
    rw [findFrom64?_of_passed hany (by rw [hheader, hnext]) htag, hstop]
    exact if_neg hlt

theorem bodyStart64?_eq {h : Header} (hbody : h.bodyStart < Width.capacity 64) :
    h.bodyStart64? = some h.bodyStart :=
  sum64?_of_lt hbody

theorem readField64?_eq {offset width : Nat} (hfield : offset + width < Width.capacity 64) :
    readField64? s mvhd offset width = some (readField s mvhd offset width) := by
  rw [readField64?, sum64?_of_lt hfield]
  rfl

theorem fieldBehind64?_eq {base distance width : Nat}
    (hfield : base + distance + width < Width.capacity 64) :
    fieldBehind64? s mvhd base distance width =
      some (readField s mvhd (base + distance) width) := by
  rw [fieldBehind64?, sum64?_of_lt (by omega), Option.bind_some, readField64?_eq hfield]

theorem readCreation64?_eq (hbody : mvhd.bodyStart + 32 < Width.capacity 64) (version : Nat) :
    readCreation64? s mvhd mvhd.bodyStart version = some (readCreation s mvhd version) := by
  match version with
  | 0 => exact fieldBehind64?_eq (by omega)
  | 1 =>
    rw [readCreation64?, readCreation, fieldBehind64?_eq (by omega), Option.bind_some]
    cases readField s mvhd (mvhd.bodyStart + 4) 4 with
    | error e => rfl
    | ok high =>
      dsimp only
      rw [fieldBehind64?_eq (by omega)]
      rfl
  | version + 2 => rfl

/-- The fields of the duration are among the first 32 bytes of the body, in each version. -/
theorem readDuration64?_eq (hbody : mvhd.bodyStart + 32 < Width.capacity 64) (version : Nat) :
    readDuration64? s mvhd mvhd.bodyStart version = some (readDuration? s mvhd version) := by
  have hspans : ∃ timescaleAt durationAt width, timescaleAt + 4 ≤ 32 ∧ durationAt + width ≤ 32 ∧
      (if version = 1 then (20, 24, 8) else (12, 16, 4)) = (timescaleAt, durationAt, width) := by
    by_cases hone : version = 1
    · exact ⟨20, 24, 8, by decide, by decide, if_pos hone⟩
    · exact ⟨12, 16, 4, by decide, by decide, if_neg hone⟩
  obtain ⟨timescaleAt, durationAt, width, htimescale, hduration, hspans⟩ := hspans
  unfold readDuration64? readDuration?
  rw [hspans]
  dsimp only
  rw [fieldBehind64?_eq (by omega), Option.bind_some]
  cases readField s mvhd (mvhd.bodyStart + timescaleAt) 4 with
  | error e => rfl
  | ok timescale =>
    dsimp only
    rw [fieldBehind64?_eq (by omega)]
    rfl

/-- A creation field of 63 bits is no less after the years from 1904 to 1970 are taken off. -/
theorem signed_creation {raw : Nat} (hraw : raw < Width.capacity 63) :
    Width.signed 64 (raw - epochShift) := by
  rw [capacity_63] at hraw
  rw [Width.signed, capacity_63, epochShift, decide_eq_true_iff]
  omega

theorem readMovieHeader64?_eq (hbody : mvhd.bodyStart + 32 < Width.capacity 64) :
    readMovieHeader64? s mvhd = some (readMovieHeader s mvhd) := by
  rw [readMovieHeader64?, readMovieHeader, bodyStart64?_eq (by omega), Option.bind_some,
    readField64?_eq (by omega), Option.bind_some]
  cases readField s mvhd mvhd.bodyStart 1 with
  | error e => rfl
  | ok version =>
    dsimp only
    rw [readCreation64?_eq hbody, Option.bind_some]
    cases readCreation s mvhd version with
    | error e => rfl
    | ok raw =>
      dsimp only
      by_cases hlarge : Width.capacity 63 ≤ raw
      · rw [if_pos hlarge, if_pos hlarge, sum64?_of_lt (by omega)]
        rfl
      · rw [if_neg hlarge, if_neg hlarge, readDuration64?_eq hbody,
          difference64?_of_signed (signed_creation (Nat.not_le.mp hlarge))]
        rfl

/-- The body of a header that a scan finds begins within the source. -/
theorem bodyStart_add_lt (hs : s.bytes.size < Width.capacity 63) {stop? : Option Nat} {tag : Tag}
    {h : Header} (hfind : findFrom s stop? tag pos = .ok (some h)) :
    h.bodyStart + 32 < Width.capacity 64 := by
  obtain ⟨p, hstands⟩ := exists_standsAt_of_findFrom hfind
  have hle := hstands.bodyStart_le
  rw [capacity_63] at hs
  rw [capacity_64]
  omega

theorem readMetadata64?_eq (hs : s.bytes.size < Width.capacity 63) :
    readMetadata64? s = some (readMetadata s) := by
  have hmovie := findFrom64?_eq hs none .moov 0
  rw [readMetadata64?, readMetadata, find, Scope.whole, hmovie, Option.bind_some]
  dsimp only
  rcases hmoov : findFrom s none .moov 0 with e | _ | moov
  · rfl
  · rfl
  · have hbody := bodyStart_add_lt hs hmoov
    dsimp only
    rw [bodyStart64?_eq (by omega), Option.bind_some, findFrom64?_eq hs, Option.bind_some, find,
      Scope.body]
    dsimp only
    rcases hmvhd : findFrom s moov.stop? .mvhd moov.bodyStart with e | _ | mvhd
    · rfl
    · rfl
    · exact readMovieHeader64?_eq (bodyStart_add_lt hs hmvhd)

/-! ## Alignment -/

/-- The creation times that a container can give. -/
theorem creation_of_readMetadata {m : Metadata} (h : readMetadata s = .ok m) :
    ∃ raw : Nat, raw < Width.capacity 63 ∧ m.creation = raw - epochShift := by
  unfold readMetadata at h
  split at h
  · contradiction
  · contradiction
  · split at h
    · contradiction
    · contradiction
    · unfold readMovieHeader at h
      split at h
      · contradiction
      · split at h
        · contradiction
        · split at h
          · contradiction
          · next raw _ hraw =>
            obtain rfl := Except.ok.inj h
            exact ⟨raw, Nat.not_le.mp hraw, rfl⟩

theorem align64?_eq {creation : Int} {session : Session}
    (h : Width.signed 64 (session.start - creation)) (duration : Float) :
    align64? creation duration session = some (align creation duration session) := by
  rw [align64?, difference64?_of_signed h, Option.map_some, ← Timeline.offset_align h duration]

/-- Reading the metadata of a source of fewer than 2 ^ 63 bytes never overflows, whatever the bytes
say and however the source reads and fails: 64-bit arithmetic gives what the library gives. Nor
does aligning what was read overflow, with any session whose start lies as far from the ends of
64 bits as 1904 is from 1970. -/
theorem arithmetic_fits (hs : s.bytes.size < Width.capacity 63) {session : Session}
    (hfirst : -epochShift ≤ session.start)
    (hlast : session.start ≤ Width.capacity 63 - 1 - epochShift) :
    readMetadata64? s = some (readMetadata s) ∧
      ∀ m, readMetadata s = .ok m → ∀ duration,
        align64? m.creation duration session = some (align m.creation duration session) := by
  refine ⟨readMetadata64?_eq hs, fun m hm duration => align64?_eq ?_ duration⟩
  obtain ⟨raw, hraw, hcreation⟩ := creation_of_readMetadata hm
  rw [hcreation, Width.signed, decide_eq_true_iff]
  rw [capacity_63] at hraw hlast ⊢
  rw [epochShift] at hfirst hlast ⊢
  omega

/-- A movie that is created as late as a header can say. -/
def latest : List UInt8 :=
  [0x00, 0x00, 0x00, 0x1C, 0x6D, 0x6F, 0x6F, 0x76, 0x00, 0x00, 0x00, 0x14, 0x6D, 0x76, 0x68, 0x64,
    0x01, 0x00, 0x00, 0x00, 0x7F, 0xFF, 0xFF, 0xFF, 0xFF, 0xFF, 0xFF, 0xFF]

/-- It can be read from a file and aligned with a session in 1904, a whole range of 64-bit numbers
before it. -/
theorem arithmetic_fits_latest :
    (Source.file latest.toArray).bytes.size < Width.capacity 63 ∧
      readMetadata64? (.file latest.toArray) = some (.ok ⟨9223372034771931007, none⟩) ∧
      align64? 9223372034771931007 60.0 ⟨-2082844800, 0⟩ =
        some (align 9223372034771931007 60.0 ⟨-2082844800, 0⟩) := by
  have hsize : (Source.file latest.toArray).bytes.size < Width.capacity 63 := by decide +kernel
  have hread : readMetadata (.file latest.toArray) = .ok ⟨9223372034771931007, none⟩ := by
    decide +kernel
  obtain ⟨hmetadata, halign⟩ := @arithmetic_fits (.file latest.toArray) hsize ⟨-2082844800, 0⟩
    (by decide +kernel) (by decide +kernel)
  exact ⟨hsize, hmetadata.trans (congrArg some hread), halign _ hread 60.0⟩

end VideoSync.Container
