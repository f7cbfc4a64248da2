/-
  Text as UTF-8 bytes. `decode?` accepts exactly the well-formed byte sequences; `lossy` reads
  every byte sequence, putting one replacement character in the place of each longest piece that
  starts a character and is then broken off.
-/

namespace VideoSync

/-- A sequence of bytes with constant-time access. -/
abbrev Bytes := Array UInt8

namespace Text

/-- What the first byte of a character of two to four bytes promises: how many bytes follow, the
least and greatest value of the next one, and the bits it contributes itself. -/
structure Lead where
  tails : Nat
  least : Nat
  greatest : Nat
  bits : Nat
  deriving DecidableEq, Repr

/-- The promise of a first byte; a continuation byte and the bytes that no character starts with
make none. -/
def lead? (b : Nat) : Option Lead :=
  if 0xC2 ≤ b ∧ b ≤ 0xDF then some ⟨1, 0x80, 0xBF, b - 0xC0⟩
  else if b = 0xE0 then some ⟨2, 0xA0, 0xBF, 0⟩
  else if b = 0xED then some ⟨2, 0x80, 0x9F, 0xD⟩
  else if 0xE1 ≤ b ∧ b ≤ 0xEF then some ⟨2, 0x80, 0xBF, b - 0xE0⟩
  else if b = 0xF0 then some ⟨3, 0x90, 0xBF, 0⟩
  else if 0xF1 ≤ b ∧ b ≤ 0xF3 then some ⟨3, 0x80, 0xBF, b - 0xF0⟩
  else if b = 0xF4 then some ⟨3, 0x80, 0x8F, 4⟩
  else none

/-- Reads `tails` more bytes of a character, the next one from `least` to `greatest`: its code
point, or nothing where it is broken off, with the bytes that were not used. -/
def finish (bits : Nat) : (tails least greatest : Nat) → List UInt8 → Option Char × List UInt8
  | 0, _, _, bytes => (some (Char.ofNat bits), bytes)
  | _ + 1, _, _, [] => (none, [])
  | tails + 1, least, greatest, b :: rest =>
    if least ≤ b.toNat ∧ b.toNat ≤ greatest then
      finish (bits * 64 + (b.toNat - 0x80)) tails 0x80 0xBF rest
    else (none, b :: rest)

theorem finish_length (bits tails least greatest : Nat) (bytes : List UInt8) :
    (finish bits tails least greatest bytes).2.length ≤ bytes.length := by
  fun_induction finish bits tails least greatest bytes with
  | case1 => simp
  | case2 => simp
  | case3 _ _ _ _ _ _ _ ih => simp only [List.length_cons]; omega
  | case4 => simp

/-- The character at the front of a non-empty sequence, or nothing for a broken piece, with the
bytes after it. -/
def front (b : UInt8) (rest : List UInt8) : Option Char × List UInt8 :=
  if b.toNat < 0x80 then (some (Char.ofNat b.toNat), rest)
  else match lead? b.toNat with
    | some l => finish l.bits l.tails l.least l.greatest rest
    | none => (none, rest)

theorem front_length (b : UInt8) (rest : List UInt8) :
    (front b rest).2.length ≤ rest.length := by
  unfold front
  split
  · simp
  · split
    · exact finish_length _ _ _ _ _
    · simp

/-- The characters and broken pieces of a byte sequence, in order. -/
def pieces : List UInt8 → List (Option Char)
  | [] => []
  | b :: rest => (front b rest).1 :: pieces (front b rest).2
termination_by bytes => bytes.length
decreasing_by
  have := front_length b rest
  simp only [List.length_cons]
  omega

/-- Every byte sequence as text, each broken piece as one replacement character. -/
def lossy (bytes : List UInt8) : String :=
  String.ofList ((pieces bytes).map (·.getD '\uFFFD'))

/-- The text that a well-formed byte sequence encodes. -/
def decode? (bytes : List UInt8) : Option String :=
  ((pieces bytes).mapM id).map String.ofList

/-- The bytes of a text. -/
def encode (text : String) : Bytes := text.toUTF8.data

end Text
end VideoSync
