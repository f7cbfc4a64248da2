import VideoSync.Text.Utf8
import VideoSync.Storage.Failure
import VideoSync.Width

/-
  Byte sources with random access. A source may return fewer bytes than asked for, and its reads
  and seeks may fail from some position on. A scan reads each position at most once, so what a read
  returns is a function of where it starts.
-/

namespace VideoSync.Storage

/-- Bytes behind a reader. -/
structure Source where
  bytes : Bytes
  /-- How many of the wanted bytes a read at a position returns at most. -/
  grant : Nat → Nat → Nat := fun _ wanted => wanted
  /-- Reads that start at this position or later fail, and no read passes it. -/
  readFault : Option Nat := none
  /-- Seeks to this position or later fail. -/
  seekFault : Option Nat := none
  /-- The failure of a faulty read or seek. -/
  failure : Failure := ⟨.other, ""⟩

namespace Source

/-- Bytes in memory: every seek succeeds. -/
def memory (bytes : Bytes) : Source := { bytes }

/-- The first position that a file cannot be asked to seek to: one past the size of the largest
file, which has `2 ^ 32 - 1` blocks of 4096 bytes. -/
def fileSeekBound : Nat := (Width.capacity 32 - 1) * 4096 + 1

/-- The bytes of an open file; seeks to the bound or beyond it fail. -/
def file (bytes : Bytes) (bound : Nat := fileSeekBound) : Source :=
  { bytes, seekFault := some bound, failure := SystemFailure.invalidArgument.failure }

/-- An open directory, which can be opened but not read. -/
def directory : Source :=
  { bytes := #[], readFault := some 0, failure := SystemFailure.isDirectory.failure }

/-- At most `count` bytes from a position on. -/
def slice (s : Source) (pos count : Nat) : List UInt8 :=
  (s.bytes.extract pos (pos + count)).toList

/-- Moves to a position. -/
def seek (s : Source) (pos : Nat) : Except Failure Unit :=
  if s.seekFault.any (· ≤ pos) then .error s.failure else .ok ()

/-- One read of at most `wanted` bytes; no bytes mean the end of the source. -/
def read (s : Source) (pos wanted : Nat) : Except Failure (List UInt8) :=
  let count := min wanted (s.grant pos wanted)
  match s.readFault with
  | some fault =>
    if fault ≤ pos then .error s.failure else .ok (s.slice pos (min count (fault - pos)))
  | none => .ok (s.slice pos count)

/-- Reads until `wanted` bytes are there or the source ends. -/
def fill (s : Source) (pos wanted : Nat) : Except Failure (List UInt8) :=
  if wanted = 0 then .ok []
  else match s.read pos wanted with
    | .error e => .error e
    | .ok [] => .ok []
    | .ok (b :: more) =>
      (s.fill (pos + more.length + 1) (wanted - (more.length + 1))).map ((b :: more) ++ ·)
termination_by wanted
decreasing_by omega

/-- Reads exactly `wanted` bytes. -/
def exactly (s : Source) (pos wanted : Nat) : Except Failure (List UInt8) :=
  match s.fill pos wanted with
  | .error e => .error e
  | .ok bytes => if bytes.length < wanted then .error earlyEnd else .ok bytes

end Source
end VideoSync.Storage
