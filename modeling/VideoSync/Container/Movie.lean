import VideoSync.Container.Scan
import VideoSync.Container.Metadata
import VideoSync.Decimal.Literal

/-
  The movie header and what it says. After its own header come a version byte, three flag bytes, a
  creation time, a modification time, a timescale and a duration; the times and the duration have 32
  bits in version 0 and 64 bits in version 1. A header without a usable duration still gives the
  creation time.
-/

namespace VideoSync.Container

open VideoSync.Storage (Source)

/-- Seconds from 1904, where container times begin, to 1970. -/
def epochShift : Int := 2082844800

/-- The field of `width` bytes at an offset inside the movie header. -/
def readField (s : Source) (mvhd : Header) (offset width : Nat) : Except Error Nat :=
  match mvhd.stop? with
  | some stop =>
    if stop < offset + width then .error (.malformed offset (.fieldPastEnd stop)) else readBytes
  | none => readBytes
where
  /-- The field without regard to the end of the header. -/
  readBytes : Except Error Nat :=
    match s.seek offset with
    | .error e => .error (.io e)
    | .ok () =>
      match s.exactly offset width with
      | .error e => .error (.ofRead offset .movieField e)
      | .ok bytes => .ok (bigEndian bytes)

/-- The creation field, in seconds since 1904. -/
def readCreation (s : Source) (mvhd : Header) (version : Nat) : Except Error Nat :=
  match version with
  | 0 => readField s mvhd (mvhd.bodyStart + 4) 4
  | 1 =>
    match readField s mvhd (mvhd.bodyStart + 4) 4 with
    | .error e => .error e
    | .ok high =>
      (readField s mvhd (mvhd.bodyStart + 8) 4).map fun low => high * Width.capacity 32 + low
  | _ => .error (.malformed mvhd.bodyStart (.unsupportedVersion version))

/-- A duration of all ones is unknown, and so is one in a timescale of zero. -/
def durationOf (width timescale duration : Nat) : Option Float :=
  if duration = Width.capacity (8 * width) - 1 ∨ timescale = 0 then none
  else some (Float.ofNat duration / Float.ofNat timescale)

/-- The duration in seconds; any trouble with its fields means that there is none. -/
def readDuration? (s : Source) (mvhd : Header) (version : Nat) : Option Float :=
  let (timescaleAt, durationAt, width) := if version = 1 then (20, 24, 8) else (12, 16, 4)
  match readField s mvhd (mvhd.bodyStart + timescaleAt) 4 with
  | .error _ => none
  | .ok timescale =>
    match readField s mvhd (mvhd.bodyStart + durationAt) width with
    | .error _ => none
    | .ok duration => durationOf width timescale duration

/-- The metadata that a movie header holds. -/
def readMovieHeader (s : Source) (mvhd : Header) : Except Error Metadata :=
  match readField s mvhd mvhd.bodyStart 1 with
  | .error e => .error e
  | .ok version =>
    match readCreation s mvhd version with
    | .error e => .error e
    | .ok raw =>
      if Width.capacity 63 ≤ raw then
        .error (.malformed (mvhd.bodyStart + 4) (.creationOutOfRange raw))
      else .ok ⟨raw - epochShift, readDuration? s mvhd version⟩

/-- The metadata of a container: the first movie box, in it the first movie header. -/
def readMetadata (s : Source) : Except Error Metadata :=
  match find s .whole .moov with
  | .error e => .error e
  | .ok none => .error .metadataNotFound
  | .ok (some moov) =>
    match find s (.body moov) .mvhd with
    | .error e => .error e
    | .ok none => .error (.malformed moov.start .noMovieHeader)
    | .ok (some mvhd) => readMovieHeader s mvhd

end VideoSync.Container
