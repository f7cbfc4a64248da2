import VideoSync.Text.Utf8
import VideoSync.Width

/-
  Boxes of a movie container. A box is a header and a body; the header holds a four-byte tag and a
  size that counts the header itself. Offsets are natural numbers; the end of a box saturates at the
  greatest 64-bit offset.
-/

namespace VideoSync.Container

/-- The four bytes that name a kind of box. -/
structure Tag where
  b0 : UInt8
  b1 : UInt8
  b2 : UInt8
  b3 : UInt8
  deriving DecidableEq, Repr

namespace Tag

/-- The bytes of a tag in order. -/
def toList (t : Tag) : List UInt8 := [t.b0, t.b1, t.b2, t.b3]

/-- A tag as text. -/
def name (t : Tag) : String := Text.lossy t.toList

/-- The box that holds all metadata of a movie. -/
def moov : Tag := ⟨0x6D, 0x6F, 0x6F, 0x76⟩

/-- The header box of a movie. -/
def mvhd : Tag := ⟨0x6D, 0x76, 0x68, 0x64⟩

end Tag

/-- The greatest offset. -/
def maxOffset : Nat := Width.capacity 64 - 1

/-- Length of a header with a 32-bit size. -/
def compactLength : Nat := 8

/-- Length of a header with a 64-bit size after the tag. -/
def extendedLength : Nat := 16

/-- A box header and where it stands. -/
structure Header where
  tag : Tag
  start : Nat
  length : Nat
  /-- The size of the whole box; without one it runs to the end of what encloses it. -/
  size : Option Nat
  deriving DecidableEq, Repr

namespace Header

/-- Offset of the first body byte. -/
def bodyStart (h : Header) : Nat := h.start + h.length

/-- Offset after the last byte of a box with a size. -/
def stop? (h : Header) : Option Nat := h.size.map fun size => min (h.start + size) maxOffset

end Header

/-- A stretch of bytes that holds boxes side by side. -/
structure Scope where
  start : Nat
  /-- Where it ends; without an end it runs to the end of the source. -/
  stop? : Option Nat
  deriving DecidableEq, Repr

namespace Scope

/-- The whole source. -/
def whole : Scope := ⟨0, none⟩

/-- The body of a box. -/
def body (parent : Header) : Scope := ⟨parent.bodyStart, parent.stop?⟩

end Scope

/-- The number that bytes write, the most significant first. -/
def bigEndian (bytes : List UInt8) : Nat := bytes.foldl (fun n b => n * 256 + b.toNat) 0

end VideoSync.Container
