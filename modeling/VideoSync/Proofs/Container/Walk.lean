import VideoSync.Proofs.Container.Grammar

/-
  What the scan for a box finds. `Finds bytes stop? tag pos skipped head rest h` says that the
  bytes from `pos` on are complete boxes with other tags, then a header with the tag, then a rest,
  and that the header `h` describes the header bytes and stays inside the scope. A scan of a plain
  source finds a header exactly if its bytes can be read that way (`findFrom_eq_some_iff`).
-/

namespace VideoSync.Container

open VideoSync.Storage (Source)

/-- Complete boxes with other tags, and then a header with the tag. -/
structure Finds (bytes : List UInt8) (stop? : Option Nat) (tag : Tag) (pos : Nat)
    (skipped : List (List UInt8)) (head rest : List UInt8) (h : Header) : Prop where
  split : bytes = skipped.flatten ++ (head ++ rest)
  others : ∀ x ∈ skipped, ∃ t, t ≠ tag ∧ IsBox t x
  isHeader : IsHeader tag head h.size
  header : h = ⟨tag, pos + skipped.flatten.length, head.length, h.size⟩
  before : ∀ stop ∈ stop?, h.start < stop
  within : ∀ stop ∈ stop?, ∀ e ∈ h.stop?, e ≤ stop

variable {s : Source} {stop? : Option Nat} {tag : Tag} {pos : Nat} {h : Header}

theorem nextHeader_eq_some_iff :
    nextHeader s stop? pos = .ok (some h) ↔
      readHeader s pos = .ok (some h) ∧ ∀ stop ∈ stop?, ∀ e ∈ h.stop?, e ≤ stop := by
  unfold nextHeader
  constructor
  · intro heq
    split at heq
    · contradiction
    · split at heq
      · contradiction
      · cases heq
    · next h' hread =>
      split at heq
      · next scopeEnd boxEnd hscope hbox =>
        split at heq
        · contradiction
        · next hle =>
          obtain rfl := Option.some.inj (Except.ok.inj heq)
          refine ⟨hread, ?_⟩
          rw [hbox]
          rintro _ ⟨⟩ _ ⟨⟩
          exact Nat.not_lt.mp hle
      · next hnone =>
        obtain rfl := Option.some.inj (Except.ok.inj heq)
        exact ⟨hread, fun stop hstop e he => absurd he (hnone stop e hstop)⟩
  · intro hnext
    obtain ⟨hread, hle⟩ := hnext
    rw [hread]
    dsimp only
    split
    · next scopeEnd boxEnd hbox =>
      rw [if_neg (Nat.not_lt.mpr (hle _ rfl _ hbox))]
    · rfl

/-- A box that is followed by more bytes ends where its size says. -/
theorem stop?_eq_of_tail (hb : s.bytes.size < Width.capacity 64) {next size : Nat}
    (hsize : h.size = some size) (hstop : h.stop? = some next) (hnext : s.tail next ≠ []) :
    next = h.start + size := by
  have hlt : next < s.bytes.size := by
    have hpos := List.length_pos_iff.mpr hnext
    rw [Source.length_tail] at hpos
    omega
  unfold Header.stop? at hstop
  rw [hsize, Option.map_some, Option.some.injEq] at hstop
  unfold maxOffset at hstop
  omega

theorem any_le_iff : stop?.any (· ≤ pos) ↔ ∃ stop ∈ stop?, stop ≤ pos := by
  cases stop? with
  | none => simp
  | some stop => simp

/-- There is always more after the skipped boxes. -/
theorem Finds.ne_nil {bytes : List UInt8} {skipped : List (List UInt8)} {head rest : List UInt8}
    (hfinds : Finds bytes stop? tag pos skipped head rest h) : bytes ≠ [] := by
  have hpos := hfinds.isHeader.length_pos
  rw [hfinds.split, ← List.length_pos_iff, List.length_append, List.length_append]
  omega

/-- A box that is skipped on the way to a header is complete. -/
theorem Finds.cons (hs : s.Plain) (hb : s.bytes.size < Width.capacity 64) {h' : Header}
    {next : Nat} {skipped : List (List UInt8)} {head rest : List UInt8}
    (hread : readHeader s pos = .ok (some h')) (htag : h'.tag ≠ tag) (hstop : h'.stop? = some next)
    (hfinds : Finds (s.tail next) stop? tag next skipped head rest h) :
    ∃ x, Finds (s.tail pos) stop? tag pos (x :: skipped) head rest h := by
  obtain ⟨head', rest', htail, hhead, hstart, -⟩ := (readHeader_eq_some_iff hs).mp hread
  cases hsize : h'.size with
  | none =>
    rw [Header.stop?, hsize] at hstop
    contradiction
  | some size =>
    have hne := hfinds.ne_nil
    obtain rfl : next = pos + size := by
      rw [← hstart]
      exact stop?_eq_of_tail hb hsize hstop hne
    rw [Source.tail_add] at hne hfinds
    have hlength : ((s.tail pos).take size).length = size :=
      List.length_take_of_le (Nat.le_of_lt (List.length_lt_of_drop_ne_nil hne))
    rw [hsize] at hhead
    have hbox : IsBox h'.tag ((s.tail pos).take size) := by
      refine ⟨head', rest'.take (size - head'.length), ?_, by rw [hlength]; exact hhead⟩
      rw [htail, List.take_append, List.take_of_length_le hhead.length_le]
    refine ⟨(s.tail pos).take size, ?_, ?_, hfinds.isHeader, ?_, hfinds.before, hfinds.within⟩
    · rw [List.flatten_cons, List.append_assoc, ← hfinds.split, List.take_append_drop]
    · intro x hx
      rcases List.mem_cons.mp hx with rfl | hx
      · exact ⟨h'.tag, htag, hbox⟩
      · exact hfinds.others x hx
    · rw [List.flatten_cons, List.length_append, hlength, ← Nat.add_assoc]
      exact hfinds.header

/-- What the scan finds is what the bytes lead to. -/
theorem exists_finds (hs : s.Plain) (hb : s.bytes.size < Width.capacity 64)
    (hfind : findFrom s stop? tag pos = .ok (some h)) :
    ∃ skipped head rest, Finds (s.tail pos) stop? tag pos skipped head rest h := by
  fun_induction findFrom s stop? tag pos with
  | case2 => contradiction
  | case4 pos hbefore h' hnext htag =>
    obtain rfl := Option.some.inj (Except.ok.inj hfind)
    obtain ⟨hread, hwithin⟩ := nextHeader_eq_some_iff.mp hnext
    obtain ⟨head, rest, htail, hhead, hstart, hlength⟩ := (readHeader_eq_some_iff hs).mp hread
    rw [htag] at hhead
    refine ⟨[], head, rest, htail, nofun, hhead, ?_, ?_, hwithin⟩
    · rw [List.flatten_nil, List.length_nil, Nat.add_zero, ← htag, ← hstart, ← hlength]
    · intro stop hstop
      rw [hstart]
      exact Nat.lt_of_not_le fun hle => hbefore (any_le_iff.mpr ⟨stop, hstop, hle⟩)
  | case6 pos hbefore h' hnext htag next hstop hlt ih =>
    obtain ⟨skipped, head, rest, hrest⟩ := ih hfind
    obtain ⟨x, hx⟩ := hrest.cons hs hb (nextHeader_eq_some_iff.mp hnext).1 htag hstop
    exact ⟨x :: skipped, head, rest, hx⟩
  | _ => exact nomatch Except.ok.inj hfind

/-- The first skipped box is read, and the scan goes on after it. -/
theorem Finds.step (hs : s.Plain) (hmax : h.start ≤ maxOffset) {x : List UInt8}
    {skipped : List (List UInt8)} {head rest : List UInt8}
    (hfinds : Finds (s.tail pos) stop? tag pos (x :: skipped) head rest h) :
    ∃ h', readHeader s pos = .ok (some h') ∧ h'.tag ≠ tag ∧ h'.stop? = some (pos + x.length) ∧
      0 < x.length ∧
      Finds (s.tail (pos + x.length)) stop? tag (pos + x.length) skipped head rest h := by
  obtain ⟨t, htag, head', body, hx, hhead⟩ := hfinds.others x List.mem_cons_self
  have hsplit : s.tail pos = x ++ (skipped.flatten ++ (head ++ rest)) := by
    rw [hfinds.split, List.flatten_cons, List.append_assoc]
  have hafter : s.tail (pos + x.length) = skipped.flatten ++ (head ++ rest) := by
    rw [Source.tail_add, hsplit, List.drop_left]
  have hlater : Finds (s.tail (pos + x.length)) stop? tag (pos + x.length) skipped head rest h := by
    refine ⟨hafter, fun y hy => hfinds.others y (List.mem_cons_of_mem x hy), hfinds.isHeader, ?_,
      hfinds.before, hfinds.within⟩
    have hheader := hfinds.header
    rw [List.flatten_cons, List.length_append, ← Nat.add_assoc] at hheader
    exact hheader
  have hhere : s.tail pos = head' ++ (body ++ (skipped.flatten ++ (head ++ rest))) := by
    rw [hsplit, ← List.append_assoc head', ← hx]
  have hpos : 0 < x.length := Nat.lt_of_lt_of_le hhead.length_pos hhead.length_le
  refine ⟨_, hhead.read hs hhere, htag, ?_, hpos, hlater⟩
  have hstart : h.start = pos + x.length + skipped.flatten.length := by rw [hlater.header]
  have hmin : min (pos + x.length) maxOffset = pos + x.length := by omega
  rw [Header.stop?, Option.map_some, hmin]

/-- A header that the bytes lead to is found. -/
theorem Finds.find (hs : s.Plain) (hmax : h.start ≤ maxOffset) {skipped : List (List UInt8)}
    {head rest : List UInt8} (hfinds : Finds (s.tail pos) stop? tag pos skipped head rest h) :
    findFrom s stop? tag pos = .ok (some h) := by
  have hstart : h.start = pos + skipped.flatten.length := by rw [hfinds.header]
  have hbefore : ¬ stop?.any (· ≤ pos) := by
    intro hany
    obtain ⟨stop, hstop, hle⟩ := any_le_iff.mp hany
    have hlt := hfinds.before stop hstop
    omega
  induction skipped generalizing pos with
  | nil =>
    have hnext : nextHeader s stop? pos = .ok (some h) := by
      refine nextHeader_eq_some_iff.mpr ⟨?_, hfinds.within⟩
      rw [hfinds.isHeader.read hs hfinds.split, hfinds.header]
      rfl
    have htag : h.tag = tag := by rw [hfinds.header]
    rw [findFrom, if_neg hbefore, hnext]
    exact if_pos htag
  | cons x skipped ih =>
    obtain ⟨h', hread, htag, hstop, hpos, hlater⟩ := hfinds.step hs hmax
    have hlength : (x ++ skipped.flatten).length = x.length + skipped.flatten.length :=
      List.length_append
    rw [List.flatten_cons, hlength] at hstart
    have hbeyond : ∀ stop ∈ stop?, pos + x.length < stop := by
      intro stop hmem
      have hlt := hfinds.before stop hmem
      omega
    have hnext : nextHeader s stop? pos = .ok (some h') := by
      refine nextHeader_eq_some_iff.mpr ⟨hread, ?_⟩
      rw [hstop]
      rintro stop hmem _ ⟨⟩
      exact Nat.le_of_lt (hbeyond stop hmem)
    have hbefore' : ¬ stop?.any (· ≤ pos + x.length) := by
      intro hany
      obtain ⟨stop, hmem, hle⟩ := any_le_iff.mp hany
      exact absurd (hbeyond stop hmem) (Nat.not_lt.mpr hle)
    rw [findFrom, if_neg hbefore, hnext]
    dsimp only
    rw [if_neg htag]
    split
    · next hnone => rw [hstop] at hnone; contradiction
    · next next hsome =>
      rw [hstop] at hsome
      obtain rfl := Option.some.inj hsome
      rw [if_pos (by omega)]
      exact ih hlater (by omega) hbefore'

theorem Finds.bodyStart_eq {bytes : List UInt8} {skipped : List (List UInt8)}
    {head rest : List UInt8} (hfinds : Finds bytes stop? tag pos skipped head rest h) :
    h.bodyStart = pos + skipped.flatten.length + head.length := by
  rw [hfinds.header]
  rfl

/-- The body of the box that is found holds the rest of the bytes. -/
theorem Finds.tail_bodyStart {skipped : List (List UInt8)} {head rest : List UInt8}
    (hfinds : Finds (s.tail pos) stop? tag pos skipped head rest h) :
    s.tail h.bodyStart = rest := by
  rw [hfinds.bodyStart_eq, Source.tail_add, Source.tail_add, hfinds.split, List.drop_left,
    List.drop_left]

/-- The header that is found lies in the source. -/
theorem Finds.bodyStart_le {skipped : List (List UInt8)} {head rest : List UInt8}
    (hfinds : Finds (s.tail pos) stop? tag pos skipped head rest h) :
    h.bodyStart ≤ s.bytes.size := by
  have hlength := congrArg List.length hfinds.split
  rw [Source.length_tail, List.length_append, List.length_append] at hlength
  have hpos := hfinds.isHeader.length_pos
  rw [hfinds.bodyStart_eq]
  omega

theorem Finds.start_le (hb : s.bytes.size < Width.capacity 64) {skipped : List (List UInt8)}
    {head rest : List UInt8} (hfinds : Finds (s.tail pos) stop? tag pos skipped head rest h) :
    h.start ≤ maxOffset := by
  have hle := hfinds.bodyStart_le
  unfold Header.bodyStart at hle
  unfold maxOffset
  omega

/-- A box that is found ends behind its header. -/
theorem Finds.bodyStart_le_stop (hb : s.bytes.size < Width.capacity 64)
    {skipped : List (List UInt8)} {head rest : List UInt8}
    (hfinds : Finds (s.tail pos) stop? tag pos skipped head rest h) {e : Nat}
    (he : h.stop? = some e) : h.bodyStart ≤ e := by
  have hle := hfinds.bodyStart_le
  have hlength : h.length = head.length := by rw [hfinds.header]
  have hhead := hfinds.isHeader
  unfold Header.stop? at he
  cases hsize : h.size with
  | none =>
    rw [hsize] at he
    contradiction
  | some size =>
    rw [hsize] at he hhead
    have hcovers := hhead.length_le
    rw [Option.map_some, Option.some.injEq] at he
    unfold Header.bodyStart maxOffset at *
    omega

/-- A scan finds a header exactly if the bytes lead to it. -/
theorem findFrom_eq_some_iff (hs : s.Plain) (hb : s.bytes.size < Width.capacity 64) :
    findFrom s stop? tag pos = .ok (some h) ↔
      ∃ skipped head rest, Finds (s.tail pos) stop? tag pos skipped head rest h := by
  constructor
  · exact exists_finds hs hb
  · intro hfinds
    obtain ⟨skipped, head, rest, hfinds⟩ := hfinds
    exact hfinds.find hs (hfinds.start_le hb)

end VideoSync.Container
