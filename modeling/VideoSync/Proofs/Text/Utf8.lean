import VideoSync.Text.Utf8

/-
  Encoded text is decoded again. The first byte of an encoded character promises what follows it,
  and the bytes that follow keep the promise: `front_encodeChar`.
-/

namespace VideoSync.Text

open String (utf8EncodeChar)

/-- One more byte of a character. -/
theorem finish_ofNat {bits tails least greatest b : Nat} (hleast : least ≤ b)
    (hgreatest : b ≤ greatest) (hb : b < 256) (rest : List UInt8) :
    finish bits (tails + 1) least greatest (UInt8.ofNat b :: rest) =
      finish (bits * 64 + (b - 0x80)) tails 0x80 0xBF rest := by
  have hvalue : (UInt8.ofNat b).toNat = b := by rw [UInt8.toNat_ofNat', Nat.mod_eq_of_lt hb]
  rw [finish, hvalue, if_pos ⟨hleast, hgreatest⟩]

theorem front_ofNat {b tails least greatest bits : Nat} (hb : b < 256) (h : 0x80 ≤ b)
    (hlead : lead? b = some ⟨tails, least, greatest, bits⟩) (rest : List UInt8) :
    front (UInt8.ofNat b) rest = finish bits tails least greatest rest := by
  have hvalue : (UInt8.ofNat b).toNat = b := by rw [UInt8.toNat_ofNat', Nat.mod_eq_of_lt hb]
  rw [front, hvalue, if_neg (by omega), hlead]

theorem ofNat_eq {c : Char} {n : Nat} (h : n = c.val.toNat) : Char.ofNat n = c := by
  rw [h]
  exact Char.ofNat_toNat c

/-- The first of three bytes bounds the second, which leaves out the surrogates and what would fit
in two bytes. -/
theorem lead?_three {v : Nat} (hleast : 0x800 ≤ v) (hgreatest : v < 0x10000)
    (hvalid : v < 0xD800 ∨ (0xDFFF < v ∧ v < 0x110000)) :
    ∃ least greatest,
      lead? (v / 4096 % 16 + 224) = some ⟨2, least, greatest, v / 4096 % 16 + 224 - 0xE0⟩ ∧
        least ≤ v / 64 % 64 + 128 ∧ v / 64 % 64 + 128 ≤ greatest := by
  unfold lead?
  rw [if_neg (by omega)]
  split
  · next hfirst => exact ⟨_, _, by rw [hfirst], by omega, by omega⟩
  split
  · next hsurrogate => exact ⟨_, _, by rw [hsurrogate], by omega, by omega⟩
  · rw [if_pos (by omega)]
    exact ⟨_, _, rfl, by omega, by omega⟩

/-- The first of four bytes bounds the second, which leaves out what would fit in three bytes and
what is no character. -/
theorem lead?_four {v : Nat} (hleast : 0x10000 ≤ v) (hgreatest : v < 0x110000) :
    ∃ least greatest,
      lead? (v / 262144 % 8 + 240) = some ⟨3, least, greatest, v / 262144 % 8 + 240 - 0xF0⟩ ∧
        least ≤ v / 4096 % 64 + 128 ∧ v / 4096 % 64 + 128 ≤ greatest := by
  unfold lead?
  rw [if_neg (by omega), if_neg (by omega), if_neg (by omega), if_neg (by omega)]
  split
  · next hfirst => exact ⟨_, _, by rw [hfirst], by omega, by omega⟩
  split
  · exact ⟨_, _, rfl, by omega, by omega⟩
  · have hlast : v / 262144 % 8 + 240 = 0xF4 := by omega
    rw [hlast]
    exact ⟨_, _, rfl, by omega, by omega⟩

/-- An encoded character comes off the front whole. -/
theorem front_encodeChar (c : Char) (rest : List UInt8) :
    ∃ b more, utf8EncodeChar c = b :: more ∧ front b (more ++ rest) = (some c, rest) := by
  have hvalid : c.val.toNat < 0xD800 ∨ (0xDFFF < c.val.toNat ∧ c.val.toNat < 0x110000) := c.valid
  generalize hv : c.val.toNat = v at hvalid
  have hchar {n : Nat} (h : n = v) (tail : List UInt8) :
      (some (Char.ofNat n), tail) = (some c, tail) := by rw [ofNat_eq (h.trans hv.symm)]
  rw [utf8EncodeChar]
  rw [hv]
  split
  · next hone =>
    refine ⟨_, [], rfl, ?_⟩
    have hvalue : (UInt8.ofNat v).toNat = v := by
      rw [UInt8.toNat_ofNat', Nat.mod_eq_of_lt (by omega)]
    rw [front, hvalue, if_pos (by omega)]
    exact hchar rfl rest
  split
  · next htwo =>
    refine ⟨_, _, rfl, ?_⟩
    have hlead : lead? (v / 64 % 32 + 192) = some ⟨1, 0x80, 0xBF, v / 64 % 32 + 192 - 0xC0⟩ := by
      rw [lead?, if_pos (by omega)]
    rw [front_ofNat (by omega) (by omega) hlead, List.cons_append,
      finish_ofNat (by omega) (by omega) (by omega), finish]
    exact hchar (by omega) rest
  split
  · next hthree =>
    refine ⟨_, _, rfl, ?_⟩
    obtain ⟨least, greatest, hlead, hleast, hgreatest⟩ := lead?_three (by omega) (by omega) hvalid
    rw [front_ofNat (by omega) (by omega) hlead, List.cons_append, List.cons_append,
      finish_ofNat hleast hgreatest (by omega), finish_ofNat (by omega) (by omega) (by omega),
      finish]
    exact hchar (by omega) rest
  · next hfour =>
    refine ⟨_, _, rfl, ?_⟩
    obtain ⟨least, greatest, hlead, hleast, hgreatest⟩ := lead?_four (v := v) (by omega) (by omega)
    rw [front_ofNat (by omega) (by omega) hlead, List.cons_append, List.cons_append,
      List.cons_append, finish_ofNat hleast hgreatest (by omega),
      finish_ofNat (by omega) (by omega) (by omega), finish_ofNat (by omega) (by omega) (by omega),
      finish]
    exact hchar (by omega) rest

theorem pieces_encode (cs : List Char) : pieces (cs.flatMap utf8EncodeChar) = cs.map some := by
  induction cs with
  | nil => rw [List.flatMap_nil, pieces]; rfl
  | cons c cs ih =>
    obtain ⟨b, more, hencode, hfront⟩ := front_encodeChar c (cs.flatMap utf8EncodeChar)
    rw [List.flatMap_cons, hencode, List.cons_append, pieces, hfront, List.map_cons, ← ih]

theorem toList_encode (text : String) :
    (encode text).toList = text.toList.flatMap utf8EncodeChar := by
  rw [encode, String.toUTF8, ← String.utf8Encode_toList, List.utf8Encode, List.data_toByteArray]

/-- Text survives being encoded. -/
theorem decode?_encode (text : String) : decode? (encode text).toList = some text := by
  rw [decode?, toList_encode, pieces_encode]
  have hall (cs : List Char) : (cs.map some).mapM id = some cs := by
    induction cs with
    | nil => rfl
    | cons c cs ih => simp [ih]
  rw [hall, Option.map_some, String.ofList_toList]

end VideoSync.Text
