import VideoSync.Proofs.Container.Visits
import VideoSync.Proofs.Container.Walk

/-
  Every way in which a scan can end, without a reader. `Leads s stop? tag pos p` says that complete
  boxes with other tags lead from one position to another, each next one at the end of the box
  before it. At the last of these positions is a header with the tag, or the boxes end, or something
  is wrong: `BoxFault` says what, and at which offset. A scan of a plain source does exactly what
  `Arrives` says (`findFrom_eq_iff`).
-/

namespace VideoSync.Container

open VideoSync.Storage (Source)

/-! ## One position -/

/-- A header of the grammar starts at a position. -/
def HeaderAt (s : Source) (pos : Nat) (h : Header) : Prop :=
  ∃ head rest, s.tail pos = head ++ rest ∧ IsHeader h.tag head h.size ∧ h.start = pos ∧
    h.length = head.length

/-- A position lies before the end of a scope. -/
def Inside (stop? : Option Nat) (pos : Nat) : Prop := ∀ stop ∈ stop?, pos < stop

/-- A box does not end behind its scope. -/
def Fits (stop? : Option Nat) (h : Header) : Prop := ∀ stop ∈ stop?, ∀ e ∈ h.stop?, e ≤ stop

/-- Some bytes, which stand at a position, start a header but do not complete one. The offset is
that of the header, or that of its 64-bit size if the bytes end inside of it. -/
inductive HeaderFault (bytes : List UInt8) (pos : Nat) : Nat → Defect → Prop
  | short (hpos : 0 < bytes.length) (h : bytes.length < compactLength) :
      HeaderFault bytes pos pos (.shortHeader bytes.length)
  | truncated {field rest : List UInt8} {tag : Tag} (hbytes : bytes = field ++ tag.toList ++ rest)
      (hfield : field.length = 4) (hone : bigEndian field = 1) (h : rest.length < 8) :
      HeaderFault bytes pos (pos + compactLength) (.truncated .extendedSize)
  | compact {field rest : List UInt8} {tag : Tag} (hbytes : bytes = field ++ tag.toList ++ rest)
      (hfield : field.length = 4) (hone : 1 < bigEndian field)
      (h : bigEndian field < compactLength) :
      HeaderFault bytes pos pos (.undersized tag (bigEndian field) compactLength)
  | extended {field ext rest : List UInt8} {tag : Tag}
      (hbytes : bytes = field ++ tag.toList ++ (ext ++ rest)) (hfield : field.length = 4)
      (hone : bigEndian field = 1) (hext : ext.length = 8) (h : bigEndian ext < extendedLength) :
      HeaderFault bytes pos pos (.undersized tag (bigEndian ext) extendedLength)

/-- What is wrong with the box at a position of a scope: its header is incomplete, there is none
although the scope goes on, or the box ends behind the scope. -/
inductive BoxFault (s : Source) (stop? : Option Nat) (pos : Nat) : Nat → Defect → Prop
  | header {offset : Nat} {defect : Defect} (h : HeaderFault (s.tail pos) pos offset defect) :
      BoxFault s stop? pos offset defect
  | missing {stop : Nat} (hend : s.bytes.size ≤ pos) (hstop : stop? = some stop) :
      BoxFault s stop? pos pos .endsInsideParent
  | overruns {h : Header} {stop e : Nat} (hheader : HeaderAt s pos h) (hstop : stop? = some stop)
      (he : h.stop? = some e) (hlt : stop < e) :
      BoxFault s stop? pos pos (.overrunsParent h.tag)

/-! ## Reading at one position -/

variable {s : Source} {stop? : Option Nat} {tag : Tag} {pos next p offset : Nat} {h : Header}
  {defect : Defect} {e : Error}

theorem tail_eq_nil_iff : s.tail pos = [] ↔ s.bytes.size ≤ pos := by
  rw [← List.length_eq_zero_iff, Source.length_tail]
  omega

theorem inside_none (pos : Nat) : Inside none pos := nofun

theorem not_any_le_iff : ¬ stop?.any (· ≤ pos) ↔ Inside stop? pos := by
  rw [any_le_iff]
  unfold Inside
  constructor
  · intro hnone stop hstop
    exact Nat.lt_of_not_le fun hle => hnone ⟨stop, hstop, hle⟩
  · intro hinside hany
    obtain ⟨stop, hstop, hle⟩ := hany
    exact Nat.not_le.mpr (hinside stop hstop) hle

/-- A header lies in the source. -/
theorem HeaderAt.bodyStart_le (hheader : HeaderAt s pos h) : h.bodyStart ≤ s.bytes.size := by
  obtain ⟨head, rest, htail, hhead, hstart, hlength⟩ := hheader
  have hsplit := congrArg List.length htail
  rw [Source.length_tail, List.length_append] at hsplit
  have hpos := hhead.length_pos
  unfold Header.bodyStart
  omega

/-- A box ends behind its header, and so behind where it starts. -/
theorem HeaderAt.bodyStart_le_stop (hheader : HeaderAt s pos h)
    (hs : s.bytes.size < Width.capacity 64) (hstop : h.stop? = some next) :
    h.bodyStart ≤ next ∧ pos < next := by
  have hle := hheader.bodyStart_le
  obtain ⟨head, rest, -, hhead, hstart, hlength⟩ := hheader
  have hpos := hhead.length_pos
  unfold Header.stop? at hstop
  cases hsize : h.size with
  | none =>
    rw [hsize] at hstop
    contradiction
  | some size =>
    rw [hsize] at hstop hhead
    have hcovers := hhead.length_le
    rw [Option.map_some, Option.some.injEq] at hstop
    unfold Header.bodyStart maxOffset at *
    omega

theorem checked_eq_error_iff :
    h.checked = .error e ↔ ∃ size, h.size = some size ∧ size < h.length ∧
      e = .malformed h.start (.undersized h.tag size h.length) := by
  unfold Header.checked
  cases hsize : h.size with
  | none => simp
  | some size =>
    by_cases hlt : size < h.length
    · simp [hlt, eq_comm]
    · simp [hlt]

theorem HeaderFault.read (hs : s.Plain) (h : HeaderFault (s.tail pos) pos offset defect) :
    readHeader s pos = .error (.malformed offset defect) := by
  generalize htail : s.tail pos = bytes at h
  cases h with
  | short hpos hshort =>
    rw [← htail] at hpos hshort ⊢
    exact readHeader_short hs hpos hshort
  | truncated hbytes hfield hone hshort =>
    rw [readHeader_field hs hfield (htail.trans hbytes), hone]
    show (if _ then _ else _) = _
    rw [if_neg (Nat.not_le.mpr hshort)]
  | @compact field _ tag hbytes hfield hone hsmall =>
    obtain ⟨n, hn⟩ : ∃ n, bigEndian field = n + 2 := ⟨_, (Nat.sub_add_cancel hone).symm⟩
    have hchecked : Header.checked ⟨tag, pos, compactLength, some (bigEndian field)⟩ =
        .error (.malformed pos (.undersized tag (bigEndian field) compactLength)) :=
      checked_eq_error_iff.mpr ⟨_, rfl, hsmall, rfl⟩
    rw [hn] at hchecked
    rw [readHeader_field hs hfield (htail.trans hbytes), hn]
    show Except.map some (Header.checked _) = _
    rw [hchecked]
    rfl
  | @extended field ext rest tag hbytes hfield hone hext hsmall =>
    have hlong : 8 ≤ (ext ++ rest).length := by
      rw [List.length_append, hext]
      omega
    have htake : (ext ++ rest).take 8 = ext := by rw [← hext, List.take_left]
    have hchecked : Header.checked ⟨tag, pos, extendedLength, some (bigEndian ext)⟩ =
        .error (.malformed pos (.undersized tag (bigEndian ext) extendedLength)) :=
      checked_eq_error_iff.mpr ⟨_, rfl, hsmall, rfl⟩
    rw [readHeader_field hs hfield (htail.trans hbytes), hone]
    show (if _ then _ else _) = _
    rw [if_pos hlong, htake, hchecked]
    rfl

theorem eq_error_of_map {α β : Type} {f : α → β} {x : Except Error α} (heq : x.map f = .error e) :
    x = .error e := by
  cases x with
  | error e' => exact congrArg _ (Except.error.inj heq)
  | ok a => contradiction

/-- Reading a header fails exactly where the bytes are at fault. -/
theorem readHeader_eq_error_iff (hs : s.Plain) :
    readHeader s pos = .error e ↔
      ∃ offset defect, HeaderFault (s.tail pos) pos offset defect ∧
        e = .malformed offset defect := by
  constructor
  · intro hread
    rcases Nat.lt_or_ge (s.tail pos).length compactLength with hshort | hlong
    · rcases Nat.eq_zero_or_pos (s.tail pos).length with hzero | hpos
      · rw [readHeader_nil hs (List.length_eq_zero_iff.mp hzero)] at hread
        contradiction
      · rw [readHeader_short hs hpos hshort] at hread
        exact ⟨_, _, .short hpos hshort, (Except.error.inj hread).symm⟩
    · obtain ⟨field, tag, hfield, htake⟩ := exists_field_tag (List.length_take_of_le hlong)
      have htail : s.tail pos = field ++ tag.toList ++ (s.tail pos).drop compactLength := by
        rw [← htake, List.take_append_drop]
      generalize (s.tail pos).drop compactLength = rest at htail
      rw [readHeader_field hs hfield htail] at hread
      match hn : bigEndian field with
      | 0 =>
        rw [hn] at hread
        contradiction
      | 1 =>
        rw [hn] at hread
        by_cases hext : 8 ≤ rest.length
        · rw [if_pos hext] at hread
          obtain ⟨_, ⟨⟩, hsmall, rfl⟩ := checked_eq_error_iff.mp (eq_error_of_map hread)
          rw [← List.take_append_drop 8 rest] at htail
          exact ⟨_, _, .extended htail hfield hn (List.length_take_of_le hext) hsmall, rfl⟩
        · rw [if_neg hext] at hread
          exact ⟨_, _, .truncated htail hfield hn (Nat.not_le.mp hext),
            (Except.error.inj hread).symm⟩
      | size + 2 =>
        rw [hn] at hread
        obtain ⟨_, ⟨⟩, hsmall, rfl⟩ := checked_eq_error_iff.mp (eq_error_of_map hread)
        refine ⟨pos, .undersized tag size.succ.succ compactLength, ?_, rfl⟩
        dsimp only at hsmall
        rw [← hn] at hsmall ⊢
        exact .compact htail hfield (by omega) hsmall
  · intro hfault
    obtain ⟨offset, defect, hfault, rfl⟩ := hfault
    exact hfault.read hs

theorem map_some_ne_none (x : Except Error Header) : x.map some ≠ .ok none := by
  cases x with
  | error e' => nofun
  | ok h => nofun

/-- There is no header only where the source has ended. -/
theorem readHeader_eq_none_iff (hs : s.Plain) :
    readHeader s pos = .ok none ↔ s.bytes.size ≤ pos := by
  rw [← tail_eq_nil_iff]
  constructor
  · intro hread
    unfold readHeader at hread
    rw [hs.seek_eq, hs.fill_eq] at hread
    dsimp only at hread
    split at hread
    · contradiction
    · next heq => exact (List.take_eq_nil_iff.mp (Except.ok.inj heq)).resolve_left nofun
    · exact absurd hread (map_some_ne_none _)
  · exact readHeader_nil hs

theorem readHeader_eq_some (hs : s.Plain) :
    readHeader s pos = .ok (some h) ↔ HeaderAt s pos h :=
  readHeader_eq_some_iff hs

/-- The next header of a scope is one that fits. -/
theorem nextHeader_eq_some (hs : s.Plain) :
    nextHeader s stop? pos = .ok (some h) ↔ HeaderAt s pos h ∧ Fits stop? h := by
  rw [nextHeader_eq_some_iff, readHeader_eq_some hs]
  rfl

/-- There is no next header if the source ends where the scope need not. -/
theorem nextHeader_eq_none_iff (hs : s.Plain) :
    nextHeader s stop? pos = .ok none ↔ stop? = none ∧ s.bytes.size ≤ pos := by
  rw [← readHeader_eq_none_iff hs]
  unfold nextHeader
  constructor
  · intro hnext
    split at hnext
    · contradiction
    · next hread =>
      split at hnext
      · contradiction
      · next hstop => exact ⟨Option.not_isSome_iff_eq_none.mp hstop, hread⟩
    · split at hnext
      · split at hnext
        · contradiction
        · cases hnext
      · cases hnext
  · intro hend
    obtain ⟨rfl, hread⟩ := hend
    rw [hread]
    rfl

/-- Reading the next header fails exactly if something is wrong with the box. -/
theorem nextHeader_eq_error_iff (hs : s.Plain) :
    nextHeader s stop? pos = .error e ↔
      ∃ offset defect, BoxFault s stop? pos offset defect ∧ e = .malformed offset defect := by
  unfold nextHeader
  constructor
  · intro hnext
    split at hnext
    · next hread =>
      rw [hnext] at hread
      obtain ⟨offset, defect, hfault, he⟩ := (readHeader_eq_error_iff hs).mp hread
      exact ⟨offset, defect, .header hfault, he⟩
    · next hread =>
      split at hnext
      · next hstop =>
        obtain ⟨stop, hstop⟩ := Option.isSome_iff_exists.mp hstop
        exact ⟨_, _, .missing ((readHeader_eq_none_iff hs).mp hread) hstop,
          (Except.error.inj hnext).symm⟩
      · contradiction
    · next h hread =>
      split at hnext
      · next stop boxEnd hbox =>
        split at hnext
        · next hlt =>
          exact ⟨_, _, .overruns ((readHeader_eq_some hs).mp hread) rfl hbox hlt,
            (Except.error.inj hnext).symm⟩
        · contradiction
      · contradiction
  · intro hfault
    obtain ⟨offset, defect, hfault, rfl⟩ := hfault
    cases hfault with
    | header hfault => rw [hfault.read hs]
    | missing hend hstop =>
      rw [(readHeader_eq_none_iff hs).mpr hend, hstop]
      rfl
    | overruns hheader hstop he hlt =>
      rw [(readHeader_eq_some hs).mpr hheader, hstop]
      dsimp only
      rw [he]
      exact if_pos hlt

/-! ## From one position to another -/

/-- At a position of a scope is a complete box with another tag, and it ends at the next
position. -/
structure Passes (s : Source) (stop? : Option Nat) (tag : Tag) (pos : Nat) (h : Header)
    (next : Nat) : Prop where
  inside : Inside stop? pos
  header : HeaderAt s pos h
  other : h.tag ≠ tag
  stop : h.stop? = some next
  fits : Fits stop? h

/-- Boxes with other tags lead from one position to another. -/
inductive Leads (s : Source) (stop? : Option Nat) (tag : Tag) : Nat → Nat → Prop
  | here (pos : Nat) : Leads s stop? tag pos pos
  | past {pos next p : Nat} {h : Header} (hbox : Passes s stop? tag pos h next)
      (hleads : Leads s stop? tag next p) : Leads s stop? tag pos p

/-- The boxes of a scope end at a position: the scope does, or the source where the scope need not,
or there is a box with another tag that runs to the end of the scope. -/
inductive Ends (s : Source) (stop? : Option Nat) (tag : Tag) (p : Nat) : Prop
  | scope {stop : Nat} (hstop : stop? = some stop) (hle : stop ≤ p)
  | source (hstop : stop? = none) (hend : s.bytes.size ≤ p)
  | openEnded {h : Header} (hinside : Inside stop? p) (hheader : HeaderAt s p h)
      (hother : h.tag ≠ tag) (hsize : h.size = none)

/-- What a scan comes to. -/
inductive Arrives (s : Source) (stop? : Option Nat) (tag : Tag) (pos : Nat) :
    Except Error (Option Header) → Prop
  | found {p : Nat} {h : Header} (hleads : Leads s stop? tag pos p) (hinside : Inside stop? p)
      (hheader : HeaderAt s p h) (htag : h.tag = tag) (hfits : Fits stop? h) :
      Arrives s stop? tag pos (.ok (some h))
  | ended {p : Nat} (hleads : Leads s stop? tag pos p) (hends : Ends s stop? tag p) :
      Arrives s stop? tag pos (.ok none)
  | failed {p offset : Nat} {defect : Defect} (hleads : Leads s stop? tag pos p)
      (hinside : Inside stop? p) (hfault : BoxFault s stop? p offset defect) :
      Arrives s stop? tag pos (.error (.malformed offset defect))

theorem Passes.onward?_eq (hs : s.Plain) (hb : s.bytes.size < Width.capacity 64)
    (hbox : Passes s stop? tag pos h next) :
    onward? tag pos (nextHeader s stop? pos) = some next :=
  onward?_eq_some_iff.mpr ⟨h, (nextHeader_eq_some hs).mpr ⟨hbox.header, hbox.fits⟩, hbox.other,
    hbox.stop, (hbox.header.bodyStart_le_stop hb hbox.stop).2⟩

theorem passes_of_onward? (hs : s.Plain) (hinside : Inside stop? pos)
    (hnext : onward? tag pos (nextHeader s stop? pos) = some next) :
    ∃ h, Passes s stop? tag pos h next := by
  obtain ⟨h, hread, hother, hstop, -⟩ := onward?_eq_some_iff.mp hnext
  obtain ⟨hheader, hfits⟩ := (nextHeader_eq_some hs).mp hread
  exact ⟨h, hinside, hheader, hother, hstop, hfits⟩

/-- A scan goes on after a box with another tag. -/
theorem Passes.findFrom_eq (hs : s.Plain) (hb : s.bytes.size < Width.capacity 64)
    (hbox : Passes s stop? tag pos h next) :
    findFrom s stop? tag pos = findFrom s stop? tag next := by
  rw [Container.findFrom_eq (not_any_le_iff.mpr hbox.inside), hbox.onward?_eq hs hb]

theorem Leads.findFrom_eq (hs : s.Plain) (hb : s.bytes.size < Width.capacity 64)
    (hleads : Leads s stop? tag pos p) : findFrom s stop? tag pos = findFrom s stop? tag p := by
  induction hleads with
  | here => rfl
  | past hbox _ ih => exact (hbox.findFrom_eq hs hb).trans ih

theorem Arrives.cons (hbox : Passes s stop? tag pos h next) {found : Except Error (Option Header)}
    (harrives : Arrives s stop? tag next found) : Arrives s stop? tag pos found := by
  cases harrives with
  | found hleads hinside hheader htag hfits =>
    exact .found (.past hbox hleads) hinside hheader htag hfits
  | ended hleads hends => exact .ended (.past hbox hleads) hends
  | failed hleads hinside hfault => exact .failed (.past hbox hleads) hinside hfault

/-- A scan that does not go on arrives where it is. -/
theorem arrives_settled (hs : s.Plain) (hb : s.bytes.size < Width.capacity 64)
    (hinside : Inside stop? pos) (hnone : onward? tag pos (nextHeader s stop? pos) = none) :
    Arrives s stop? tag pos (settled tag (nextHeader s stop? pos)) := by
  rcases hnext : nextHeader s stop? pos with e | _ | h
  · obtain ⟨offset, defect, hfault, rfl⟩ := (nextHeader_eq_error_iff hs).mp hnext
    exact .failed (.here pos) hinside hfault
  · obtain ⟨hstop, hend⟩ := (nextHeader_eq_none_iff hs).mp hnext
    exact .ended (.here pos) (.source hstop hend)
  · obtain ⟨hheader, hfits⟩ := (nextHeader_eq_some hs).mp hnext
    dsimp only [settled]
    by_cases htag : h.tag = tag
    · rw [if_pos htag]
      exact .found (.here pos) hinside hheader htag hfits
    · rw [if_neg htag]
      cases hstop : h.stop? with
      | none =>
        exact .ended (.here pos) (.openEnded hinside hheader htag (Option.map_eq_none_iff.mp hstop))
      | some next =>
        rw [Passes.onward?_eq hs hb ⟨hinside, hheader, htag, hstop, hfits⟩] at hnone
        contradiction

/-- A scan arrives somewhere. -/
theorem arrives_findFrom (hs : s.Plain) (hb : s.bytes.size < Width.capacity 64)
    (stop? : Option Nat) (tag : Tag) (pos : Nat) :
    Arrives s stop? tag pos (findFrom s stop? tag pos) := by
  fun_induction visited s stop? tag pos with
  | case1 pos hstop =>
    obtain ⟨stop, hmem, hle⟩ := any_le_iff.mp hstop
    rw [findFrom, if_pos hstop]
    exact .ended (.here pos) (.scope hmem hle)
  | case2 pos hstop hnone =>
    rw [findFrom_eq hstop, hnone]
    exact arrives_settled hs hb (not_any_le_iff.mp hstop) hnone
  | case3 pos hstop next hnext ih =>
    obtain ⟨h, hbox⟩ := passes_of_onward? hs (not_any_le_iff.mp hstop) hnext
    rw [hbox.findFrom_eq hs hb]
    exact ih.cons hbox

theorem Ends.findFrom_eq (hs : s.Plain) (hends : Ends s stop? tag p) :
    findFrom s stop? tag p = .ok none := by
  cases hends with
  | scope hstop hle => rw [findFrom, if_pos (any_le_iff.mpr ⟨_, hstop, hle⟩)]
  | source hstop hend =>
    subst hstop
    rw [Container.findFrom_eq (not_any_le_iff.mpr (inside_none p)),
      (nextHeader_eq_none_iff hs).mpr ⟨rfl, hend⟩]
    rfl
  | @openEnded h hinside hheader hother hsize =>
    have hstop : h.stop? = none := by rw [Header.stop?, hsize, Option.map_none]
    have hfits : Fits stop? h := by
      intro stop _ e hend
      rw [hstop] at hend
      cases hend
    rw [Container.findFrom_eq (not_any_le_iff.mpr hinside),
      (nextHeader_eq_some hs).mpr ⟨hheader, hfits⟩]
    simp only [onward?, settled, if_neg hother, hstop, Option.filter_none]

/-- A scan does exactly what the bytes say. -/
theorem findFrom_eq_iff (hs : s.Plain) (hb : s.bytes.size < Width.capacity 64)
    {found : Except Error (Option Header)} :
    findFrom s stop? tag pos = found ↔ Arrives s stop? tag pos found := by
  constructor
  · intro hfind
    rw [← hfind]
    exact arrives_findFrom hs hb stop? tag pos
  · intro harrives
    cases harrives with
    | @found p h hleads hinside hheader htag hfits =>
      rw [hleads.findFrom_eq hs hb, Container.findFrom_eq (not_any_le_iff.mpr hinside),
        (nextHeader_eq_some hs).mpr ⟨hheader, hfits⟩]
      simp only [onward?, settled, if_pos htag]
    | ended hleads hends => rw [hleads.findFrom_eq hs hb, hends.findFrom_eq hs]
    | failed hleads hinside hfault =>
      rw [hleads.findFrom_eq hs hb, Container.findFrom_eq (not_any_le_iff.mpr hinside),
        (nextHeader_eq_error_iff hs).mpr ⟨_, _, hfault, rfl⟩]
      rfl

end VideoSync.Container
