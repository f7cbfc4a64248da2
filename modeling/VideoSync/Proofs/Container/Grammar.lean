import Mathlib.Tactic.Ring
import VideoSync.Container.Scan
import VideoSync.Proofs.Storage.Reads

/-
  What boxes look like as bytes, without a reader. `IsHeader tag bytes size` says that the bytes
  are a header with a tag that declares a size, or none; `IsBox tag bytes` says that they are one
  complete box. Reading a header from a plain source finds exactly these: `readHeader_eq_some_iff`.
-/

namespace VideoSync.Container

open VideoSync.Storage (Source earlyEnd)

/-! ## Numbers in bytes -/

theorem foldl_bigEndian (n : Nat) (bytes : List UInt8) :
    bytes.foldl (fun n b => n * 256 + b.toNat) n = n * 256 ^ bytes.length + bigEndian bytes := by
  unfold bigEndian
  induction bytes generalizing n with
  | nil => simp
  | cons b bytes ih =>
    rw [List.foldl_cons, List.foldl_cons, ih, ih (0 * 256 + b.toNat), List.length_cons,
      Nat.pow_succ]
    ring

/-- The first bytes of a number are its high digits. -/
theorem bigEndian_append (high low : List UInt8) :
    bigEndian (high ++ low) = bigEndian high * 256 ^ low.length + bigEndian low := by
  rw [← foldl_bigEndian]
  exact List.foldl_append

/-! ## Headers and boxes -/

/-- The bytes are a header with a tag and a declared size. The 32-bit size field is 0 in a header
that declares no size, and 1 where a 64-bit size follows the tag. -/
inductive IsHeader (tag : Tag) : List UInt8 → Option Nat → Prop
  | openEnded {field : List UInt8} (hfield : field.length = 4) (h : bigEndian field = 0) :
      IsHeader tag (field ++ tag.toList) none
  | compact {field : List UInt8} (hfield : field.length = 4)
      (h : compactLength ≤ bigEndian field) :
      IsHeader tag (field ++ tag.toList) (some (bigEndian field))
  | extended {field ext : List UInt8} (hfield : field.length = 4) (hone : bigEndian field = 1)
      (hext : ext.length = 8) (h : extendedLength ≤ bigEndian ext) :
      IsHeader tag (field ++ tag.toList ++ ext) (some (bigEndian ext))

/-- The bytes are a header that declares a size, and as many bytes in all. -/
def IsBox (tag : Tag) (bytes : List UInt8) : Prop :=
  ∃ head body, bytes = head ++ body ∧ IsHeader tag head (some bytes.length)

theorem IsHeader.length {tag : Tag} {head : List UInt8} {size : Option Nat}
    (h : IsHeader tag head size) : head.length = compactLength ∨ head.length = extendedLength := by
  cases h with
  | openEnded hfield => exact .inl (by simp [hfield, Tag.toList, compactLength])
  | compact hfield => exact .inl (by simp [hfield, Tag.toList, compactLength])
  | extended hfield _ hext => exact .inr (by simp [hfield, hext, Tag.toList, extendedLength])

theorem IsHeader.length_pos {tag : Tag} {head : List UInt8} {size : Option Nat}
    (h : IsHeader tag head size) : 0 < head.length := by
  rcases h.length with hlength | hlength <;> rw [hlength] <;> decide

/-- A size covers at least the header. -/
theorem IsHeader.length_le {tag : Tag} {head : List UInt8} {size : Nat}
    (h : IsHeader tag head (some size)) : head.length ≤ size := by
  cases h with
  | compact hfield h => simpa [hfield, Tag.toList, compactLength] using h
  | extended hfield _ hext h => simpa [hfield, hext, Tag.toList, extendedLength] using h

/-! ## Reading a header -/

theorem exists_field_tag {bytes : List UInt8} (h : bytes.length = compactLength) :
    ∃ (field : List UInt8) (tag : Tag), field.length = 4 ∧ bytes = field ++ tag.toList := by
  match bytes, h with
  | [a, b, c, d, t0, t1, t2, t3], _ => exact ⟨[a, b, c, d], ⟨t0, t1, t2, t3⟩, rfl, rfl⟩

theorem readSized_field (s : Source) (pos : Nat) {field : List UInt8} (hfield : field.length = 4)
    (tag : Tag) :
    readSized s pos (field ++ tag.toList) =
      match bigEndian field with
      | 0 => .ok ⟨tag, pos, compactLength, none⟩
      | 1 =>
        match s.exactly (pos + compactLength) 8 with
        | .error e => .error (.ofRead (pos + compactLength) .extendedSize e)
        | .ok ext => Header.checked ⟨tag, pos, extendedLength, some (bigEndian ext)⟩
      | size => Header.checked ⟨tag, pos, compactLength, some size⟩ := by
  match field, hfield with
  | [a, b, c, d], _ => rfl

variable {s : Source} {pos : Nat}

/-- Where a plain source has ended there is no header. -/
theorem readHeader_nil (hs : s.Plain) (h : s.tail pos = []) : readHeader s pos = .ok none := by
  unfold readHeader
  rw [hs.seek_eq, hs.fill_eq, h]
  rfl

/-- Eight bytes of a plain source and what they announce. -/
theorem readHeader_field (hs : s.Plain) {field rest : List UInt8} {tag : Tag}
    (hfield : field.length = 4) (htail : s.tail pos = field ++ tag.toList ++ rest) :
    readHeader s pos =
      match bigEndian field with
      | 0 => .ok (some ⟨tag, pos, compactLength, none⟩)
      | 1 =>
        if 8 ≤ rest.length then
          (Header.checked ⟨tag, pos, extendedLength, some (bigEndian (rest.take 8))⟩).map some
        else .error (.malformed (pos + compactLength) (.truncated .extendedSize))
      | size => (Header.checked ⟨tag, pos, compactLength, some size⟩).map some := by
  have hlength : (field ++ tag.toList).length = compactLength := by
    simp [hfield, Tag.toList, compactLength]
  have htake : (s.tail pos).take compactLength = field ++ tag.toList := by
    rw [htail, ← hlength, List.take_left]
  have hrest : s.tail (pos + compactLength) = rest := by
    rw [Source.tail_add, htail, ← hlength, List.drop_left]
  unfold readHeader
  rw [hs.seek_eq, hs.fill_eq, htake]
  dsimp only
  split
  · next heq => contradiction
  · next heq =>
    have hnil := Except.ok.inj heq
    rw [hnil] at hlength
    contradiction
  · next bytes _ heq =>
    obtain rfl := Except.ok.inj heq
    rw [readSized_field s pos hfield tag, hs.exactly_eq, hrest]
    match bigEndian field with
    | 0 => rfl
    | 1 =>
      by_cases hext : 8 ≤ rest.length
      · rw [if_pos hext, if_pos hext]
        rfl
      · rw [if_neg hext, if_neg hext]
        rfl
    | size + 2 => rfl

/-- Fewer than eight bytes are no header. -/
theorem readHeader_short (hs : s.Plain) (hpos : 0 < (s.tail pos).length)
    (hshort : (s.tail pos).length < compactLength) :
    readHeader s pos = .error (.malformed pos (.shortHeader (s.tail pos).length)) := by
  have htake : (s.tail pos).take compactLength = s.tail pos :=
    List.take_of_length_le (Nat.le_of_lt hshort)
  unfold readHeader
  rw [hs.seek_eq, hs.fill_eq, htake]
  dsimp only
  split
  · next heq => contradiction
  · next heq =>
    rw [Except.ok.inj heq] at hpos
    contradiction
  · next bytes _ heq =>
    obtain rfl := Except.ok.inj heq
    unfold readSized
    split
    · next hbytes =>
      rw [hbytes] at hshort
      contradiction
    · rfl

theorem checked_of_le {h : Header} (hle : ∀ size ∈ h.size, h.length ≤ size) :
    h.checked = .ok h := by
  unfold Header.checked
  split
  · next size hsize => rw [if_neg (Nat.not_lt.mpr (hle size hsize))]
  · rfl

theorem checked_eq_ok {h h' : Header} (heq : h.checked = .ok h') :
    h' = h ∧ ∀ size ∈ h.size, h.length ≤ size := by
  unfold Header.checked at heq
  split at heq
  · next size hsize =>
    split at heq
    · contradiction
    · next hle =>
      refine ⟨(Except.ok.inj heq).symm, ?_⟩
      rw [hsize]
      rintro _ ⟨⟩
      exact Nat.not_lt.mp hle
  · next hnone =>
    refine ⟨(Except.ok.inj heq).symm, ?_⟩
    rw [hnone]
    nofun

theorem eq_ok_of_map_some {x : Except Error Header} {h : Header}
    (heq : x.map some = .ok (some h)) : x = .ok h := by
  cases x with
  | error e => contradiction
  | ok h' =>
    obtain rfl := Option.some.inj (Except.ok.inj heq)
    rfl

/-- A header of the grammar is read as what it is. -/
theorem IsHeader.read (hs : s.Plain) {tag : Tag} {head rest : List UInt8} {size : Option Nat}
    (h : IsHeader tag head size) (htail : s.tail pos = head ++ rest) :
    readHeader s pos = .ok (some ⟨tag, pos, head.length, size⟩) := by
  cases h with
  | openEnded hfield h =>
    rw [readHeader_field hs hfield htail, h]
    simp [hfield, Tag.toList, compactLength]
  | compact hfield h =>
    have hsize : compactLength = 8 := rfl
    obtain ⟨n, hn⟩ : ∃ n, bigEndian _ = n + 2 := ⟨_, (Nat.sub_add_cancel (by omega)).symm⟩
    rw [readHeader_field hs hfield htail, hn]
    show (Header.checked ⟨tag, pos, compactLength, some (n + 2)⟩).map some = _
    rw [← hn, checked_of_le (by rintro _ ⟨⟩; exact h)]
    simp [hfield, Tag.toList, compactLength, Except.map]
  | @extended field ext hfield hone hext h =>
    rw [List.append_assoc] at htail
    have htake : (ext ++ rest).take 8 = ext := by
      rw [← hext, List.take_left]
    rw [readHeader_field hs hfield htail, hone, if_pos (by simp [hext]), htake]
    show (Header.checked ⟨tag, pos, extendedLength, some (bigEndian ext)⟩).map some = _
    rw [checked_of_le (by rintro _ ⟨⟩; exact h)]
    simp [hfield, hext, Tag.toList, extendedLength, Except.map]

/-- The headers of a plain source are those of the grammar. -/
theorem readHeader_eq_some_iff (hs : s.Plain) {h : Header} :
    readHeader s pos = .ok (some h) ↔
      ∃ head rest, s.tail pos = head ++ rest ∧ IsHeader h.tag head h.size ∧ h.start = pos ∧
        h.length = head.length := by
  constructor
  · intro hread
    rcases Nat.lt_or_ge (s.tail pos).length compactLength with hshort | hlong
    · rcases Nat.eq_zero_or_pos (s.tail pos).length with hzero | hpos
      · rw [readHeader_nil hs (List.length_eq_zero_iff.mp hzero)] at hread
        exact nomatch Except.ok.inj hread
      · rw [readHeader_short hs hpos hshort] at hread
        contradiction
    · obtain ⟨field, tag, hfield, htake⟩ :=
        exists_field_tag (List.length_take_of_le hlong)
      have htail : s.tail pos = field ++ tag.toList ++ (s.tail pos).drop compactLength := by
        rw [← htake, List.take_append_drop]
      generalize (s.tail pos).drop compactLength = rest at htail
      have hlength : (field ++ tag.toList).length = compactLength := by
        simp [hfield, Tag.toList, compactLength]
      rw [readHeader_field hs hfield htail] at hread
      match hn : bigEndian field with
      | 0 =>
        rw [hn] at hread
        obtain rfl := Option.some.inj (Except.ok.inj hread)
        exact ⟨_, rest, htail, .openEnded hfield hn, rfl, hlength.symm⟩
      | 1 =>
        rw [hn] at hread
        by_cases hext : 8 ≤ rest.length
        · rw [if_pos hext] at hread
          obtain ⟨rfl, hle⟩ := checked_eq_ok (eq_ok_of_map_some hread)
          have htake := List.length_take_of_le hext
          refine ⟨field ++ tag.toList ++ rest.take 8, rest.drop 8, ?_, ?_, rfl, ?_⟩
          · rw [htail, List.append_assoc _ _ (rest.drop 8), List.take_append_drop]
          · exact .extended hfield hn htake (hle _ rfl)
          · rw [List.length_append, hlength, htake]
            rfl
        · rw [if_neg hext] at hread
          contradiction
      | size + 2 =>
        rw [hn] at hread
        obtain ⟨rfl, hle⟩ := checked_eq_ok (eq_ok_of_map_some hread)
        refine ⟨_, rest, htail, ?_, rfl, hlength.symm⟩
        dsimp only at hle ⊢
        rw [← hn] at hle ⊢
        exact .compact hfield (hle _ rfl)
  · intro hheader
    obtain ⟨head, rest, htail, hhead, hstart, hlength⟩ := hheader
    rw [hhead.read hs htail, ← hstart, ← hlength]

end VideoSync.Container
