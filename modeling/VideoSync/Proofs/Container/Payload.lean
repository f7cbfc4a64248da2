import VideoSync.Proofs.Container.Diagnosis

/-
  Bytes that metadata does not depend on. The scans never look into the body of a box that they
  pass over, and of the movie header only the version, the creation time, the timescale and the
  duration are read. All the rest of these bodies is `Payload`. Two byte strings of one length that
  differ in payload only are scanned in lock step, whatever the payload looks like, and give the
  same metadata or the same error (`readMetadata_eq_of_payload`).
-/

namespace VideoSync.Container

open VideoSync.Storage (Source)

/-- A byte is in the body of a box that a scan comes to and that has another tag. -/
def Skipped (s : Source) (stop? : Option Nat) (tag : Tag) (pos i : Nat) : Prop :=
  ∃ p h, Leads s stop? tag pos p ∧ HeaderAt s p h ∧ h.tag ≠ tag ∧ h.bodyStart ≤ i ∧
    ∀ e ∈ h.stop?, i < e

/-- The spans of a movie header that are read; one of an unknown version has no other fields. -/
def Span.fields (version : Nat) : List Span :=
  if version ≤ 1 then [.version, .creation version, .timescale version, .duration version]
  else [.version]

/-- A byte is in the body of a movie header or behind it, but not in a field that is read. -/
def Unread (s : Source) (mvhd : Header) (i : Nat) : Prop :=
  mvhd.bodyStart ≤ i ∧ ∃ version, FieldAt s mvhd .version version ∧
    ∀ span ∈ Span.fields version, i < mvhd.bodyStart + span.offset ∨ mvhd.bodyStart + span.stop ≤ i

/-- A byte is in the body of a box before the movie, of a box before the movie header in it, or in
a part of the movie header that is not read. -/
inductive Payload (s : Source) (i : Nat) : Prop
  | before (hskipped : Skipped s none .moov 0 i)
  | child {moov : Header} (hmoov : Arrives s none .moov 0 (.ok (some moov)))
      (hskipped : Skipped s moov.stop? .mvhd moov.bodyStart i)
  | header {moov mvhd : Header} (hmoov : Arrives s none .moov 0 (.ok (some moov)))
      (hmvhd : Arrives s moov.stop? .mvhd moov.bodyStart (.ok (some mvhd)))
      (hunread : Unread s mvhd i)

/-- The bytes from one offset up to another are the same. -/
def Same (s t : Source) (start stop : Nat) : Prop :=
  ∀ i, start ≤ i → i < stop → t.bytes[i]? = s.bytes[i]?

variable {s t : Source} {stop? : Option Nat} {tag : Tag} {pos next p i : Nat} {h h' : Header}

/-! ## One position -/

theorem getElem?_tail (s : Source) (pos i : Nat) : (s.tail pos)[i]? = s.bytes[pos + i]? := by
  unfold Source.tail
  rw [List.getElem?_drop, Array.getElem?_toList]

theorem Same.take_tail {count : Nat} (hsame : Same s t pos (pos + count)) :
    (t.tail pos).take count = (s.tail pos).take count := by
  apply List.ext_getElem?
  intro i
  rw [List.getElem?_take, List.getElem?_take, getElem?_tail, getElem?_tail]
  split
  · next hlt => exact hsame _ (Nat.le_add_right pos i) (Nat.add_lt_add_left hlt pos)
  · rfl

theorem Same.mono {start stop start' stop' : Nat} (hsame : Same s t start stop)
    (hstart : start ≤ start') (hstop : stop' ≤ stop) : Same s t start' stop' :=
  fun i hi hlt => hsame i (Nat.le_trans hstart hi) (Nat.lt_of_lt_of_le hlt hstop)

/-- How many bytes from a position on decide which header is there: those of a 64-bit size count. -/
def reach (s : Source) (pos : Nat) : Nat :=
  if bigEndian ((s.tail pos).take 4) = 1 then extendedLength else compactLength

theorem compactLength_le_reach (s : Source) (pos : Nat) : compactLength ≤ reach s pos := by
  unfold reach
  split <;> decide

/-- A header is as long as the bytes that decide it. -/
theorem HeaderAt.length_eq (hheader : HeaderAt s pos h) : h.length = reach s pos := by
  obtain ⟨head, rest, htail, hhead, -, hlength⟩ := hheader
  have htake {field more : List UInt8} (hfield : field.length = 4) :
      (field ++ h.tag.toList ++ more).take 4 = field := by
    rw [List.append_assoc, ← hfield, List.take_left]
  rw [hlength]
  unfold reach
  generalize h.size = size at hhead
  cases hhead with
  | openEnded hfield hzero =>
    rw [htail, htake hfield, hzero]
    simp [hfield, Tag.toList, compactLength]
  | @compact field hfield hle =>
    have hne : bigEndian field ≠ 1 := by
      have : compactLength = 8 := rfl
      omega
    rw [htail, htake hfield, if_neg hne]
    simp [hfield, Tag.toList, compactLength]
  | extended hfield hone hext hle =>
    rw [List.append_assoc] at htail
    rw [htail, htake hfield, if_pos hone]
    simp [hfield, hext, Tag.toList, extendedLength]

/-- There is one header at a position. -/
theorem HeaderAt.eq (hs : s.Plain) (hheader : HeaderAt s pos h) (hheader' : HeaderAt s pos h') :
    h = h' := by
  have hread := (readHeader_eq_some hs).mpr hheader
  rw [(readHeader_eq_some hs).mpr hheader'] at hread
  exact (Option.some.inj (Except.ok.inj hread)).symm

theorem HeaderAt.start_eq (hheader : HeaderAt s pos h) : h.start = pos := by
  obtain ⟨_, _, -, -, hstart, -⟩ := hheader
  exact hstart

theorem HeaderAt.bodyStart_eq (hheader : HeaderAt s pos h) : h.bodyStart = pos + reach s pos := by
  rw [Header.bodyStart, hheader.start_eq, hheader.length_eq]

/-! ## Behind a position -/

theorem Leads.le (hb : s.bytes.size < Width.capacity 64) (hleads : Leads s stop? tag pos p) :
    pos ≤ p := by
  induction hleads with
  | here => exact Nat.le_refl _
  | past hbox _ ih =>
    have hlt := (hbox.header.bodyStart_le_stop hb hbox.stop).2
    exact Nat.le_trans (Nat.le_of_lt hlt) ih

/-- The boxes that a scan comes to have their bodies behind the header that it reads first. -/
theorem Leads.reach_le (hb : s.bytes.size < Width.capacity 64) (hleads : Leads s stop? tag pos p)
    (hheader : HeaderAt s p h) : pos + reach s pos ≤ h.bodyStart := by
  cases hleads with
  | here => exact Nat.le_of_eq hheader.bodyStart_eq.symm
  | past hbox hleads =>
    have hend := (hbox.header.bodyStart_le_stop hb hbox.stop).1
    rw [hbox.header.bodyStart_eq] at hend
    have hle := hleads.le hb
    have hbody := hheader.bodyStart_eq
    omega

/-- What a scan passes over lies before what it finds. -/
theorem Skipped.lt_start (hs : s.Plain) (hb : s.bytes.size < Width.capacity 64)
    (hskipped : Skipped s stop? tag pos i) (harrives : Arrives s stop? tag pos (.ok (some h))) :
    i < h.start := by
  obtain ⟨p, h', hleads, hheader', hother, -, hend⟩ := hskipped
  cases harrives with
  | @found q _ hfound hinside hheader htag hfits =>
    rw [hheader.start_eq]
    induction hleads with
    | here =>
      cases hfound with
      | here => exact absurd (hheader.eq hs hheader' ▸ htag) hother
      | past hbox hfound =>
        have hstop := hbox.stop
        rw [hbox.header.eq hs hheader'] at hstop
        exact Nat.lt_of_lt_of_le (hend _ hstop) (hfound.le hb)
    | past hbox _ ih =>
      cases hfound with
      | here => exact absurd (hheader.eq hs hbox.header ▸ htag) hbox.other
      | past hbox' hfound =>
        have hstop := hbox'.stop
        rw [hbox'.header.eq hs hbox.header, hbox.stop] at hstop
        obtain rfl := Option.some.inj hstop
        exact ih hheader' hfound

/-- What is passed over from a position on is in the box there, or passed over after it. -/
theorem Skipped.of_passes (hs : s.Plain) (hskipped : Skipped s stop? tag pos i)
    (hbox : Passes s stop? tag pos h next) (hle : next ≤ i) : Skipped s stop? tag next i := by
  obtain ⟨p, h', hleads, hheader, hother, hbody, hend⟩ := hskipped
  cases hleads with
  | here =>
    have hlt : i < next := by
      apply hend
      rw [hheader.eq hs hbox.header]
      exact hbox.stop
    omega
  | past hbox' hleads =>
    have hstop := hbox'.stop
    rw [hbox'.header.eq hs hbox.header, hbox.stop] at hstop
    obtain rfl := Option.some.inj hstop
    exact ⟨p, h', hleads, hheader, hother, hbody, hend⟩

/-! ## Two scans in lock step -/

/-- Two sources agree where a scan of the first one reads: behind a position, outside of what the
scan passes over and before the body of what it finds. -/
def SameOnScan (s t : Source) (stop? : Option Nat) (tag : Tag) (pos : Nat) : Prop :=
  ∀ i, pos ≤ i → ¬ Skipped s stop? tag pos i →
    (∀ h, Arrives s stop? tag pos (.ok (some h)) → i < h.bodyStart) → t.bytes[i]? = s.bytes[i]?

theorem SameOnScan.here (hb : s.bytes.size < Width.capacity 64)
    (hsame : SameOnScan s t stop? tag pos) : Same s t pos (pos + reach s pos) := by
  intro i hle hlt
  apply hsame i hle
  · intro hskipped
    obtain ⟨p, h, hleads, hheader, -, hbody, -⟩ := hskipped
    have hreach := hleads.reach_le hb hheader
    omega
  · intro h harrives
    cases harrives with
    | found hleads _ hheader _ _ => exact Nat.lt_of_lt_of_le hlt (hleads.reach_le hb hheader)

theorem SameOnScan.after (hs : s.Plain) (hb : s.bytes.size < Width.capacity 64)
    (hsame : SameOnScan s t stop? tag pos) (hbox : Passes s stop? tag pos h next) :
    SameOnScan s t stop? tag next := by
  intro i hle hskipped hbefore
  have hlt := (hbox.header.bodyStart_le_stop hb hbox.stop).2
  refine hsame i (by omega) (fun h => hskipped (h.of_passes hs hbox hle)) fun h harrives => ?_
  apply hbefore
  rw [← findFrom_eq_iff hs hb, ← hbox.findFrom_eq hs hb]
  exact (findFrom_eq_iff hs hb).mpr harrives

section LockStep

variable (hs : s.Plain) (ht : t.Plain) (hsize : t.bytes.size = s.bytes.size)
include hs ht hsize

theorem exactly_eq_of_same {count : Nat} (hsame : Same s t pos (pos + count)) :
    t.exactly pos count = s.exactly pos count := by
  rw [ht.exactly_eq, hs.exactly_eq, hsame.take_tail, Source.length_tail, Source.length_tail, hsize]

/-- The header at a position is decided by as many bytes as it reaches. -/
theorem readHeader_eq_of_same (hsame : Same s t pos (pos + reach s pos)) :
    readHeader t pos = readHeader s pos := by
  have hreach := compactLength_le_reach s pos
  have htake : (t.tail pos).take compactLength = (s.tail pos).take compactLength :=
    (hsame.mono (Nat.le_refl pos) (Nat.add_le_add_left hreach pos)).take_tail
  have hext (hone : bigEndian (((s.tail pos).take compactLength).take 4) = 1) :
      t.exactly (pos + compactLength) 8 = s.exactly (pos + compactLength) 8 := by
    rw [List.take_take] at hone
    have hwide : reach s pos = compactLength + 8 := if_pos hone
    refine exactly_eq_of_same hs ht hsize (hsame.mono (Nat.le_add_right pos _) ?_)
    rw [hwide, Nat.add_assoc]
  have hsized : readSized t pos ((s.tail pos).take compactLength) =
      readSized s pos ((s.tail pos).take compactLength) := by
    generalize (s.tail pos).take compactLength = bytes at hext
    unfold readSized
    split
    · dsimp only
      split
      · rfl
      · next hone => rw [hext hone]
      · rfl
    · rfl
  unfold readHeader
  rw [ht.seek_eq, hs.seek_eq, ht.fill_eq, hs.fill_eq, htake]
  dsimp only
  split
  · rfl
  · rfl
  · next heq =>
    obtain rfl := Except.ok.inj heq
    rw [hsized]

/-- Two scans find the same if the sources agree where the first one reads. -/
theorem findFrom_eq_of_same (hb : s.bytes.size < Width.capacity 64)
    (hsame : SameOnScan s t stop? tag pos) :
    findFrom t stop? tag pos = findFrom s stop? tag pos := by
  have hnext {pos : Nat} (hsame : SameOnScan s t stop? tag pos) :
      nextHeader t stop? pos = nextHeader s stop? pos := by
    rw [nextHeader, nextHeader, readHeader_eq_of_same hs ht hsize (hsame.here hb)]
  fun_induction visited s stop? tag pos with
  | case1 pos hstop => rw [findFrom, findFrom, if_pos hstop, if_pos hstop]
  | case2 pos hstop hnone =>
    rw [findFrom_eq hstop, findFrom_eq hstop, hnext hsame, hnone]
  | case3 pos hstop next honward ih =>
    obtain ⟨h, hbox⟩ := passes_of_onward? hs (not_any_le_iff.mp hstop) honward
    rw [findFrom_eq hstop, findFrom_eq hstop, hnext hsame, honward]
    exact ih (hsame.after hs hb hbox)

/-! ## Two movie headers -/

variable {mvhd : Header} {version : Nat}

theorem readField_eq_of_same {offset width : Nat} (hsame : Same s t offset (offset + width)) :
    readField t mvhd offset width = readField s mvhd offset width := by
  unfold readField
  rw [readBytes_eq ht, readBytes_eq hs, hsame.take_tail, Source.length_tail, Source.length_tail,
    hsize]

/-- The creation time is the same if its field is, in one piece or in two halves. -/
theorem readCreation_eq_of_same (hsame : version ≤ 1 →
      Same s t (mvhd.bodyStart + (Span.creation version).offset)
        (mvhd.bodyStart + (Span.creation version).stop)) :
    readCreation t mvhd version = readCreation s mvhd version := by
  match version with
  | 0 => exact readField_eq_of_same hs ht hsize (hsame (Nat.zero_le 1))
  | 1 =>
    have hfield : Same s t (mvhd.bodyStart + 4) (mvhd.bodyStart + 12) := hsame (Nat.le_refl 1)
    have hhigh :
        readField t mvhd (mvhd.bodyStart + 4) 4 = readField s mvhd (mvhd.bodyStart + 4) 4 :=
      readField_eq_of_same hs ht hsize (hfield.mono (by omega) (by omega))
    have hlow : readField t mvhd (mvhd.bodyStart + 8) 4 = readField s mvhd (mvhd.bodyStart + 8) 4 :=
      readField_eq_of_same hs ht hsize (hfield.mono (by omega) (by omega))
    rw [readCreation, readCreation, hhigh, hlow]
  | version + 2 => rfl

theorem fieldIn_eq_of_same {span : Span}
    (hsame : Same s t (mvhd.bodyStart + span.offset) (mvhd.bodyStart + span.stop)) :
    fieldIn t mvhd span = fieldIn s mvhd span := by
  rw [Span.stop, ← Nat.add_assoc] at hsame
  unfold fieldIn
  rw [readField_eq_of_same hs ht hsize hsame]

/-- A movie header says the same, or is wrong in the same way, if the fields that are read are the
same. -/
theorem readMovieHeader_eq_of_same
    (hversion : Same s t mvhd.bodyStart (mvhd.bodyStart + 1))
    (hfields : ∀ version, FieldAt s mvhd .version version → ∀ span ∈ Span.fields version,
      Same s t (mvhd.bodyStart + span.offset) (mvhd.bodyStart + span.stop)) :
    readMovieHeader t mvhd = readMovieHeader s mvhd := by
  unfold readMovieHeader
  rw [readField_eq_of_same hs ht hsize hversion]
  cases hread : readField s mvhd mvhd.bodyStart 1 with
  | error e => rfl
  | ok version =>
    have hfields := hfields version ((readField_eq_ok hs .version).mp hread)
    dsimp only
    by_cases hle : version ≤ 1
    · unfold Span.fields at hfields
      rw [if_pos hle] at hfields
      have hcreation := hfields (.creation version) (by simp)
      have htimescale := hfields (.timescale version) (by simp)
      have hduration := hfields (.duration version) (by simp)
      rw [readCreation_eq_of_same hs ht hsize fun _ => hcreation, readDuration?_eq,
        readDuration?_eq, fieldIn_eq_of_same hs ht hsize htimescale,
        fieldIn_eq_of_same hs ht hsize hduration]
    · match version, hle with
      | 0, hle => exact absurd (Nat.zero_le 1) hle
      | 1, hle => exact absurd (Nat.le_refl 1) hle
      | version + 2, _ => rfl

end LockStep

/-! ## Metadata -/

section Payload

variable {moov mvhd : Header}

theorem Arrives.eq (hs : s.Plain) (hb : s.bytes.size < Width.capacity 64)
    (harrives : Arrives s stop? tag pos (.ok (some h)))
    (harrives' : Arrives s stop? tag pos (.ok (some h'))) : h = h' := by
  have hfind := (findFrom_eq_iff hs hb).mpr harrives
  rw [(findFrom_eq_iff hs hb).mpr harrives'] at hfind
  exact (Option.some.inj (Except.ok.inj hfind)).symm

/-- What a scan finds is behind where it starts. -/
theorem Arrives.le_bodyStart (hb : s.bytes.size < Width.capacity 64)
    (harrives : Arrives s stop? tag pos (.ok (some h))) : pos ≤ h.bodyStart := by
  cases harrives with
  | found hleads _ hheader _ _ =>
    have hle := hleads.le hb
    rw [hheader.bodyStart_eq]
    omega

/-- What is passed over has its body behind where the scan starts. -/
theorem Skipped.le (hb : s.bytes.size < Width.capacity 64)
    (hskipped : Skipped s stop? tag pos i) : pos ≤ i := by
  obtain ⟨p, h, hleads, hheader, -, hbody, -⟩ := hskipped
  have hle := hleads.reach_le hb hheader
  omega

/-- Payload is passed over on the way to the movie, or lies in the body of the movie. -/
theorem Payload.outside (hb : s.bytes.size < Width.capacity 64) (hpayload : Payload s i) :
    Skipped s none .moov 0 i ∨
      ∃ moov, Arrives s none .moov 0 (.ok (some moov)) ∧ moov.bodyStart ≤ i := by
  cases hpayload with
  | before hskipped => exact .inl hskipped
  | child hmoov hskipped => exact .inr ⟨_, hmoov, hskipped.le hb⟩
  | header hmoov hmvhd hunread =>
    exact .inr ⟨_, hmoov, Nat.le_trans (hmvhd.le_bodyStart hb) hunread.1⟩

/-- Payload in the body of the movie is passed over on the way to the movie header, or in the
movie header and not read. -/
theorem Payload.inside (hs : s.Plain) (hb : s.bytes.size < Width.capacity 64)
    (hpayload : Payload s i) (hmoov : Arrives s none .moov 0 (.ok (some moov)))
    (hle : moov.bodyStart ≤ i) :
    Skipped s moov.stop? .mvhd moov.bodyStart i ∨
      ∃ mvhd, Arrives s moov.stop? .mvhd moov.bodyStart (.ok (some mvhd)) ∧ Unread s mvhd i := by
  cases hpayload with
  | before hskipped =>
    have hlt := hskipped.lt_start hs hb hmoov
    unfold Header.bodyStart at hle
    omega
  | child hmoov' hskipped =>
    obtain rfl := hmoov.eq hs hb hmoov'
    exact .inl hskipped
  | header hmoov' hmvhd hunread =>
    obtain rfl := hmoov.eq hs hb hmoov'
    exact .inr ⟨_, hmvhd, hunread⟩

/-- Payload in the body of the movie header is not read. -/
theorem Payload.unread (hs : s.Plain) (hb : s.bytes.size < Width.capacity 64)
    (hpayload : Payload s i) (hmoov : Arrives s none .moov 0 (.ok (some moov)))
    (hmvhd : Arrives s moov.stop? .mvhd moov.bodyStart (.ok (some mvhd)))
    (hle : mvhd.bodyStart ≤ i) : Unread s mvhd i := by
  have hbody := hmvhd.le_bodyStart hb
  rcases hpayload.inside hs hb hmoov (by omega) with hskipped | ⟨mvhd', hmvhd', hunread⟩
  · have hlt := hskipped.lt_start hs hb hmvhd
    unfold Header.bodyStart at hle
    omega
  · obtain rfl := hmvhd.eq hs hb hmvhd'
    exact hunread

/-- The bytes of a field that is read are no payload. -/
theorem same_of_mem_fields (hs : s.Plain) (hb : s.bytes.size < Width.capacity 64)
    (hsame : ∀ i, ¬ Payload s i → t.bytes[i]? = s.bytes[i]?)
    (hmoov : Arrives s none .moov 0 (.ok (some moov)))
    (hmvhd : Arrives s moov.stop? .mvhd moov.bodyStart (.ok (some mvhd))) (span : Span)
    (hread : ∀ version, FieldAt s mvhd .version version → span ∈ Span.fields version) :
    Same s t (mvhd.bodyStart + span.offset) (mvhd.bodyStart + span.stop) := by
  intro i hle hlt
  apply hsame
  intro hpayload
  obtain ⟨-, version, hversion, hfields⟩ := hpayload.unread hs hb hmoov hmvhd (by omega)
  rcases hfields span (hread version hversion) with hbefore | hbehind
  · omega
  · omega

end Payload

theorem Span.version_mem_fields (version : Nat) : .version ∈ Span.fields version := by
  unfold fields
  split
  · exact List.mem_cons_self
  · exact List.mem_cons_self

/-- A header has one version. -/
theorem FieldAt.eq {mvhd : Header} {span : Span} {value value' : Nat}
    (h : FieldAt s mvhd span value) (h' : FieldAt s mvhd span value') : value = value' :=
  h.2.2.trans h'.2.2.symm

/-- Bytes in memory, fewer than `2 ^ 64` of them, give the same metadata, or the same error at the
same offset, as all bytes of the same number that differ from them in payload only. -/
theorem readMetadata_eq_of_payload (b b' : Bytes) (hb : b.size < Width.capacity 64)
    (hsize : b'.size = b.size)
    (hsame : ∀ i, ¬ Payload (.memory b) i → b'[i]? = b[i]?) :
    readMetadata (.memory b') = readMetadata (.memory b) := by
  have hs := Source.memory_plain b
  have ht := Source.memory_plain b'
  have hmovie : find (.memory b') .whole .moov = find (.memory b) .whole .moov := by
    refine findFrom_eq_of_same hs ht hsize hb fun i _ hskipped hbefore => hsame i fun hpayload => ?_
    rcases hpayload.outside hb with hskipped' | ⟨moov, hmoov, hle⟩
    · exact hskipped hskipped'
    · exact Nat.not_lt.mpr hle (hbefore moov hmoov)
  unfold readMetadata
  rw [hmovie]
  rcases hfind : find (.memory b) .whole .moov with e | _ | moov
  · rfl
  · rfl
  have hmoov : Arrives (.memory b) none .moov 0 (.ok (some moov)) := (find_eq_iff hs hb _).mp hfind
  have hheader : find (.memory b') (.body moov) .mvhd = find (.memory b) (.body moov) .mvhd := by
    refine findFrom_eq_of_same hs ht hsize hb fun i hle hskipped hbefore =>
      hsame i fun hpayload => ?_
    rcases hpayload.inside hs hb hmoov hle with hskipped' | ⟨mvhd, hmvhd, hunread⟩
    · exact hskipped hskipped'
    · exact Nat.not_lt.mpr hunread.1 (hbefore mvhd hmvhd)
  dsimp only
  rw [hheader]
  rcases hfind : find (.memory b) (.body moov) .mvhd with e | _ | mvhd
  · rfl
  · rfl
  have hmvhd : Arrives (.memory b) moov.stop? .mvhd moov.bodyStart (.ok (some mvhd)) :=
    (find_eq_iff hs hb _).mp hfind
  have hfield (span : Span)
      (hread : ∀ version, FieldAt (.memory b) mvhd .version version →
        span ∈ Span.fields version) :
      Same (.memory b) (.memory b') (mvhd.bodyStart + span.offset) (mvhd.bodyStart + span.stop) :=
    same_of_mem_fields hs hb hsame hmoov hmvhd span hread
  refine readMovieHeader_eq_of_same hs ht hsize
    (hfield .version fun version _ => Span.version_mem_fields version) ?_
  intro version hread span hspan
  refine hfield span fun version' hread' => ?_
  rw [hread'.eq hread]
  exact hspan

/-- A movie of one minute from 1970 on, after a free box with eight bytes in it. -/
def quiet : Bytes := #[
  0, 0, 0, 16, 0x66, 0x72, 0x65, 0x65, 0, 0, 0, 0, 0, 0, 0, 0,
  0, 0, 0, 36, 0x6D, 0x6F, 0x6F, 0x76, 0, 0, 0, 28, 0x6D, 0x76, 0x68, 0x64,
  0, 0, 0, 0, 0x7C, 0x25, 0xB0, 0x80, 0, 0, 0, 0, 0, 0, 2, 0x58, 0, 0, 0x8C, 0xA0]

/-- The same with a movie box that seems to start in the free box, and with another modification
time. -/
def noisy : Bytes := #[
  0, 0, 0, 16, 0x66, 0x72, 0x65, 0x65, 0, 0, 0, 0, 0x6D, 0x6F, 0x6F, 0x76,
  0, 0, 0, 36, 0x6D, 0x6F, 0x6F, 0x76, 0, 0, 0, 28, 0x6D, 0x76, 0x68, 0x64,
  0, 0, 0, 0, 0x7C, 0x25, 0xB0, 0x80, 1, 2, 3, 4, 0, 0, 2, 0x58, 0, 0, 0x8C, 0xA0]

/-- The boxes of the quiet bytes. -/
theorem payload_quiet {i : Nat} (hi : 8 ≤ i ∧ i < 16 ∨ 40 ≤ i ∧ i < 44) :
    Payload (.memory quiet) i := by
  have hs := Source.memory_plain quiet
  have hb : quiet.size < Width.capacity 64 := by decide +kernel
  rcases hi with ⟨hle, hlt⟩ | ⟨hle, hlt⟩
  · have hfree : HeaderAt (.memory quiet) 0 ⟨⟨0x66, 0x72, 0x65, 0x65⟩, 0, 8, some 16⟩ :=
      (readHeader_eq_some hs).mp (by decide +kernel)
    refine .before ⟨0, _, .here 0, hfree, by decide, hle, ?_⟩
    rintro _ ⟨⟩
    exact hlt
  · have hmoov : find (.memory quiet) .whole .moov = .ok (some ⟨.moov, 16, 8, some 36⟩) := by
      decide +kernel
    have hmvhd : find (.memory quiet) (.body ⟨.moov, 16, 8, some 36⟩) .mvhd =
        .ok (some ⟨.mvhd, 24, 8, some 28⟩) := by
      decide +kernel
    have hversion : FieldAt (.memory quiet) ⟨.mvhd, 24, 8, some 28⟩ .version 0 :=
      (readField_eq_ok hs .version).mp (by decide +kernel)
    refine .header ((find_eq_iff hs hb .whole).mp hmoov) ((find_eq_iff hs hb _).mp hmvhd)
      ⟨?_, 0, hversion, ?_⟩
    · show 32 ≤ i
      omega
    · intro span hspan
      simp only [Span.fields, Span.version, Span.creation, Span.timescale, Span.duration,
        Nat.zero_le, if_true, List.mem_cons, List.not_mem_nil, or_false] at hspan
      show i < 32 + span.offset ∨ 32 + (span.offset + span.width) ≤ i
      rcases hspan with rfl | rfl | rfl | rfl <;> dsimp only <;> omega

theorem readMetadata_noisy :
    quiet.size < Width.capacity 64 ∧ noisy.size = quiet.size ∧
      (∀ i, ¬ Payload (.memory quiet) i → noisy[i]? = quiet[i]?) ∧
      readMetadata (.memory noisy) = readMetadata (.memory quiet) := by
  have hb : quiet.size < Width.capacity 64 := by decide +kernel
  have hsize : noisy.size = quiet.size := by decide +kernel
  have hsame : ∀ i, ¬ Payload (.memory quiet) i → noisy[i]? = quiet[i]? := by
    have hall : ∀ i < 52, noisy[i]? = quiet[i]? ∨ 8 ≤ i ∧ i < 16 ∨ 40 ≤ i ∧ i < 44 := by
      decide +kernel
    intro i hpayload
    rcases Nat.lt_or_ge i 52 with hlt | hge
    · exact (hall i hlt).resolve_right fun hi => hpayload (payload_quiet hi)
    · rw [Array.getElem?_eq_none hge, Array.getElem?_eq_none hge]
  exact ⟨hb, hsize, hsame, readMetadata_eq_of_payload quiet noisy hb hsize hsame⟩

end VideoSync.Container
