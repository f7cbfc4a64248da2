import VideoSync.Proofs.Container.Anatomy

/-
  How far the bytes reach that metadata depends on. Two byte strings `Share` their first `n` bytes
  when both have so many and these are the same. What a reader finds before `n` it finds in both of
  them.

  A movie that declares a size ends somewhere, and its metadata should not depend on anything
  behind that end. It does not exactly if the movie is `Enclosed`: the movie header declares a size
  too, or the creation time and the duration lie before the end of the movie all the same
  (`readMetadata_stable_iff`). A movie header without a size is not cut off at the end of the
  movie.
-/

namespace VideoSync.Container

open VideoSync.Storage (Source)

/-- Both have `n` bytes, and the first `n` bytes are the same. -/
structure Share (n : Nat) (b b' : Bytes) : Prop where
  left : n ≤ b.size
  right : n ≤ b'.size
  same : b.toList.take n = b'.toList.take n

theorem Share.symm {n : Nat} {b b' : Bytes} (h : Share n b b') : Share n b' b :=
  ⟨h.right, h.left, h.same.symm⟩

/-- The movie ends at `e`, and the fields that its metadata is made of lie before that. -/
def Enclosed (s : Source) (moov : Header) (e : Nat) : Prop :=
  ∃ mvhd version, find s (.body moov) .mvhd = .ok (some mvhd) ∧
    fieldIn s mvhd .version = some version ∧
    (mvhd.size.isSome ∨
      mvhd.bodyStart + (Span.creation version).stop ≤ e ∧
        (mvhd.bodyStart + (Span.duration version).stop ≤ e ∨
          mvhd.bodyStart + (Span.timescale version).stop ≤ e ∧
            fieldIn s mvhd (.timescale version) = some 0))

variable {b b' : Bytes} {n : Nat} {stop? : Option Nat} {tag : Tag} {pos : Nat} {h : Header}

/-- Bytes before `n` are the same in both. -/
theorem Share.take_tail (hb : Share n b b') {count : Nat} (hle : pos + count ≤ n) :
    ((Source.memory b').tail pos).take count = ((Source.memory b).tail pos).take count := by
  have hcount : pos + count - pos = count := Nat.add_sub_cancel_left pos count
  have htake : b'.toList.take (pos + count) = b.toList.take (pos + count) := by
    rw [← Nat.min_eq_left hle, ← List.take_take, ← List.take_take, hb.same]
  have hdrop := congrArg (List.drop pos) htake
  rw [List.drop_take, List.drop_take, hcount] at hdrop
  exact hdrop

/-- What is found before `n` is found in both. -/
theorem Share.finds (hb : Share n b b') {skipped : List (List UInt8)} {head rest : List UInt8}
    (hfinds : Finds ((Source.memory b).tail pos) stop? tag pos skipped head rest h)
    (hn : h.bodyStart ≤ n) :
    ∃ rest', Finds ((Source.memory b').tail pos) stop? tag pos skipped head rest' h := by
  rw [hfinds.bodyStart_eq, Nat.add_assoc] at hn
  have htake := hb.take_tail hn
  rw [hfinds.split, ← List.append_assoc, ← List.length_append, List.take_left] at htake
  have hall := List.take_append_drop (skipped.flatten ++ head).length
    ((Source.memory b').tail pos)
  rw [htake, List.append_assoc] at hall
  exact ⟨_, hall.symm, hfinds.others, hfinds.isHeader, hfinds.header, hfinds.before, hfinds.within⟩

theorem Share.find_eq (hb : Share n b b') {scope : Scope} (hsize : b.size < Width.capacity 64)
    (hfind : find (.memory b) scope tag = .ok (some h)) (hn : h.bodyStart ≤ n) :
    find (.memory b') scope tag = .ok (some h) := by
  obtain ⟨skipped, head, rest, hfinds⟩ :=
    (findFrom_eq_some_iff (Source.memory_plain b) hsize).mp hfind
  obtain ⟨rest', hfinds'⟩ := hb.finds hfinds hn
  exact hfinds'.find (Source.memory_plain b') (hfinds.start_le hsize)

/-- There is one box that is found. -/
theorem eq_of_find {s : Source} {scope : Scope} {h' : Header}
    (hfind : find s scope tag = .ok (some h)) (hfind' : find s scope tag = .ok (some h')) :
    h = h' :=
  Option.some.inj (Except.ok.inj (hfind.symm.trans hfind'))

/-- A field before `n` is the same in both. -/
theorem Share.fieldIn_eq (hb : Share n b b') {mvhd : Header} {span : Span}
    (hn : mvhd.bodyStart + span.stop ≤ n) :
    fieldIn (.memory b') mvhd span = fieldIn (.memory b) mvhd span := by
  rw [Span.stop, ← Nat.add_assoc] at hn
  refine Option.ext fun value => ?_
  have hleft : span.width ≤ b.size - (mvhd.bodyStart + span.offset) := by
    have hle := hb.left
    omega
  have hright : span.width ≤ b'.size - (mvhd.bodyStart + span.offset) := by
    have hle := hb.right
    omega
  have htake := hb.take_tail hn
  rw [fieldIn_eq_some_iff, fieldIn_eq_some_iff, readField_eq_ok_iff (Source.memory_plain b'),
    readField_eq_ok_iff (Source.memory_plain b), htake, Source.length_tail, Source.length_tail]
  exact and_congr_right fun _ => and_congr_left fun _ => iff_of_true hright hleft

/-- A field behind the declared end of the movie header is not read. -/
theorem fieldIn_eq_none {s : Source} (hs : s.Plain) {mvhd : Header} {span : Span} {stop : Nat}
    (hstop : mvhd.stop? = some stop) (hlt : stop < mvhd.bodyStart + span.stop) :
    fieldIn s mvhd span = none := by
  rw [Span.stop, ← Nat.add_assoc] at hlt
  refine Option.eq_none_iff_forall_ne_some.mpr fun value hvalue => ?_
  have hle := ((readField_eq_ok_iff hs).mp (fieldIn_eq_some_iff.mp hvalue)).1 stop hstop
  omega

/-- Fields with the same version, creation time and duration say the same. -/
theorem Yields.congr {field field' : Span → Option Nat} {m : Metadata} (h : Yields field m)
    (hversion : field' .version = field .version)
    (hcreation : ∀ version, field .version = some version →
      field' (.creation version) = field (.creation version))
    (hduration : ∀ version, field .version = some version →
      ∀ seconds, GivesDuration field' version seconds ↔ GivesDuration field version seconds) :
    Yields field' m := by
  obtain ⟨version, raw, hv, hle, hraw, hrange, hc, hd⟩ := h
  exact ⟨version, raw, hversion.trans hv, hle, (hcreation version hv).trans hraw, hrange, hc,
    fun seconds => (hd seconds).trans (hduration version hv seconds).symm⟩

section Movie

variable {moov mvhd : Header} {e : Nat} {m : Metadata}

/-- A movie header that declares a size lies in the movie with all its fields. -/
theorem fieldIn_eq_of_size {stop : Nat} (hb : Share e b b') (hstop : mvhd.stop? = some stop)
    (hle : stop ≤ e) : fieldIn (.memory b') mvhd = fieldIn (.memory b) mvhd := by
  funext span
  rcases Nat.lt_or_ge stop (mvhd.bodyStart + span.stop) with hlt | hge
  · rw [fieldIn_eq_none (Source.memory_plain b) hstop hlt,
      fieldIn_eq_none (Source.memory_plain b') hstop hlt]
  · exact hb.fieldIn_eq (Nat.le_trans hge hle)

/-- Where the fields of an enclosed movie header without a size are. -/
theorem Yields.congr_of_share {version : Nat} (hb : Share e b b')
    (hversion : fieldIn (.memory b) mvhd .version = some version)
    (hcreation : mvhd.bodyStart + (Span.creation version).stop ≤ e)
    (hduration : mvhd.bodyStart + (Span.duration version).stop ≤ e ∨
      mvhd.bodyStart + (Span.timescale version).stop ≤ e ∧
        fieldIn (.memory b) mvhd (.timescale version) = some 0)
    (h : Yields (fieldIn (.memory b) mvhd) m) : Yields (fieldIn (.memory b') mvhd) m := by
  have hfirst := Span.version_stop_le version
  refine h.congr (hb.fieldIn_eq (by omega)) ?_ ?_
  · intro v hv
    obtain rfl := Option.some.inj (hversion.symm.trans hv)
    exact hb.fieldIn_eq hcreation
  · intro v hv seconds
    obtain rfl := Option.some.inj (hversion.symm.trans hv)
    unfold GivesDuration
    rcases hduration with hle | ⟨hle, hzero⟩
    · have hbefore := Span.timescale_stop_le version
      rw [hb.fieldIn_eq hle, hb.fieldIn_eq (by omega : _ + (Span.timescale version).stop ≤ e)]
    · rw [hb.fieldIn_eq hle, hzero]
      constructor
      · intro hgives
        obtain ⟨_, _, ⟨⟩, -, hne, -⟩ := hgives
        exact absurd rfl hne
      · intro hgives
        obtain ⟨_, _, ⟨⟩, -, hne, -⟩ := hgives
        exact absurd rfl hne

/-- What an enclosed movie says does not depend on the bytes behind it. -/
theorem Enclosed.stable (hsize : b.size < Width.capacity 64)
    (hmoov : find (.memory b) .whole .moov = .ok (some moov)) (hstop : moov.stop? = some e)
    (hm : readMetadata (.memory b) = .ok m) (h : Enclosed (.memory b) moov e)
    (hb : Share e b b') : readMetadata (.memory b') = .ok m := by
  have hs := Source.memory_plain b
  obtain ⟨mvhd, version, hmvhd, hversion, hfields⟩ := h
  obtain ⟨moov', mvhd', hmoov', hmvhd', hyields⟩ := (readMetadata_eq_ok_iff hs).mp hm
  obtain rfl := eq_of_find hmoov hmoov'
  obtain rfl := eq_of_find hmvhd hmvhd'
  obtain ⟨_, _, _, hmovie⟩ := (findFrom_eq_some_iff hs hsize).mp hmoov
  obtain ⟨_, _, _, hheader⟩ := (findFrom_eq_some_iff hs hsize).mp hmvhd
  have hmovieEnd : moov.bodyStart ≤ e := hmovie.bodyStart_le_stop hsize hstop
  have hcourse : mvhd.bodyStart ≤ e ∧ Yields (fieldIn (.memory b') mvhd) m := by
    rcases hfields with hsized | ⟨hcreation, hduration⟩
    · obtain ⟨size, hmvhdSize⟩ := Option.isSome_iff_exists.mp hsized
      have hmvhdStop : mvhd.stop? = some (min (mvhd.start + size) maxOffset) := by
        rw [Header.stop?, hmvhdSize, Option.map_some]
      have hinside := hheader.within e hstop _ hmvhdStop
      refine ⟨Nat.le_trans (hheader.bodyStart_le_stop hsize hmvhdStop) hinside, ?_⟩
      rw [fieldIn_eq_of_size hb hmvhdStop hinside]
      exact hyields
    · exact ⟨by omega, hyields.congr_of_share hb hversion hcreation hduration⟩
  exact (readMetadata_eq_ok_iff (Source.memory_plain b')).mpr ⟨moov, mvhd,
    hb.find_eq hsize hmoov hmovieEnd, hb.find_eq hsize hmvhd hcourse.1, hcourse.2⟩

/-- A field that is there lies in the source. -/
theorem stop_le_of_fieldIn {span : Span} {value : Nat} (hwidth : 0 < span.width)
    (h : fieldIn (.memory b) mvhd span = some value) : mvhd.bodyStart + span.stop ≤ b.size := by
  rw [Span.stop, ← Nat.add_assoc]
  exact stop_le_of_readField (Source.memory_plain b) hwidth (fieldIn_eq_some_iff.mp h)

/-- In a movie header without a size a field is there if it lies in the source. -/
theorem fieldIn_eq_of_open {span : Span} (hstop : mvhd.stop? = none)
    (hle : mvhd.bodyStart + span.stop ≤ b.size) :
    fieldIn (.memory b) mvhd span = some (bigEndian
      (((Source.memory b).tail (mvhd.bodyStart + span.offset)).take span.width)) := by
  refine fieldIn_eq_some_iff.mpr ((readField_eq_ok_iff (Source.memory_plain b)).mpr ⟨?_, ?_, rfl⟩)
  · rw [hstop]
    nofun
  · rw [Source.length_tail]
    have hsize : (Source.memory b).bytes.size = b.size := rfl
    unfold Span.stop at hle
    omega

/-- The bytes before the end of the movie, and then as many ones as the fields can be long. -/
def refill (b : Bytes) (e : Nat) : Bytes := (b.toList.take e ++ List.replicate 32 1).toArray

theorem share_append (he : e ≤ b.size) (more : List UInt8) :
    Share e b (b.toList.take e ++ more).toArray where
  left := he
  right := by simp [he]
  same := by simp [he]

theorem share_refill (he : e ≤ b.size) : Share e b (refill b e) := share_append he _

/-- A field that ends behind the movie has a one as its last byte. -/
theorem fieldIn_refill {span : Span} (hstop : mvhd.stop? = none) (he : e ≤ b.size)
    (hwidth : 0 < span.width) (hlt : e < mvhd.bodyStart + span.stop)
    (hle : mvhd.bodyStart + span.stop ≤ e + 32) :
    ∃ value, fieldIn (.memory (refill b e)) mvhd span = some value ∧ value % 256 = 1 := by
  have hsize : (refill b e).size = e + 32 := by simp [refill, he]
  refine ⟨_, fieldIn_eq_of_open hstop (by omega), ?_⟩
  obtain ⟨k, hk⟩ : ∃ k, span.width = k + 1 := ⟨span.width - 1, by omega⟩
  unfold Span.stop at hlt hle
  have hlength : (b.toList.take e).length = e := by simp [he]
  have hlast : ((Source.memory (refill b e)).tail (mvhd.bodyStart + span.offset))[k]? = some 1 := by
    show ((b.toList.take e ++ List.replicate 32 1).drop (mvhd.bodyStart + span.offset))[k]? = some 1
    rw [List.getElem?_drop, List.getElem?_append_right (by omega), hlength,
      List.getElem?_replicate, if_pos (by omega)]
  rw [hk, List.take_add_one, hlast, bigEndian_append]
  simp [bigEndian]

theorem unknown_mod (version : Nat) :
    (Width.capacity (8 * (Span.duration version).width) - 1) % 256 = 255 := by
  unfold Span.duration
  split <;> decide

/-- In the refilled bytes an incomplete duration has become a real one. -/
theorem givesDuration_refill {version : Nat} (hstop : mvhd.stop? = none) (he : e ≤ b.size)
    (hbody : mvhd.bodyStart ≤ e)
    (hduration : ¬ mvhd.bodyStart + (Span.duration version).stop ≤ e)
    (htimescale : mvhd.bodyStart + (Span.timescale version).stop ≤ e →
      fieldIn (.memory b) mvhd (.timescale version) ≠ some 0) :
    ∃ seconds, GivesDuration (fieldIn (.memory (refill b e)) mvhd) version seconds := by
  have hbefore := Span.timescale_stop_le version
  have hlast := Span.duration_stop_le version
  obtain ⟨d, hd, hdlast⟩ := fieldIn_refill hstop he (Span.duration_width_pos version)
    (Nat.not_le.mp hduration) (by omega)
  have hknown : d ≠ Width.capacity (8 * (Span.duration version).width) - 1 := by
    intro heq
    rw [heq, unknown_mod] at hdlast
    contradiction
  have ht : ∃ t, fieldIn (.memory (refill b e)) mvhd (.timescale version) = some t ∧ t ≠ 0 := by
    rcases Nat.lt_or_ge e (mvhd.bodyStart + (Span.timescale version).stop) with hlt | hle
    · obtain ⟨t, ht, htlast⟩ := fieldIn_refill hstop he (Span.timescale_width_pos version) hlt
        (by omega)
      exact ⟨t, ht, by rintro rfl; contradiction⟩
    · have hthere := fieldIn_eq_of_open (b := b) hstop (Nat.le_trans hle he)
      rw [(share_refill he).fieldIn_eq hle, hthere]
      refine ⟨_, rfl, fun hzero => htimescale hle ?_⟩
      rw [hthere, hzero]
  obtain ⟨t, ht, hne⟩ := ht
  exact ⟨_, t, d, ht, hd, hne, hknown, rfl⟩

/-- What the reader finds before the end of the movie it finds in all bytes that share it. -/
theorem Share.yields (hb : Share e b b') (hsize : b.size < Width.capacity 64)
    (hmoov : find (.memory b) .whole .moov = .ok (some moov)) (hmovie : moov.bodyStart ≤ e)
    (hmvhd : find (.memory b) (.body moov) .mvhd = .ok (some mvhd)) (hheader : mvhd.bodyStart ≤ e)
    (hm : readMetadata (.memory b') = .ok m) : Yields (fieldIn (.memory b') mvhd) m := by
  obtain ⟨moov', mvhd', hmoov', hmvhd', hyields⟩ :=
    (readMetadata_eq_ok_iff (Source.memory_plain b')).mp hm
  obtain rfl := eq_of_find (hb.find_eq hsize hmoov hmovie) hmoov'
  obtain rfl := eq_of_find (hb.find_eq hsize hmvhd hheader) hmvhd'
  exact hyields

/-- Where the movie header is if the bytes behind the movie can be cut off. -/
theorem exists_enclosed (hsize : b.size < Width.capacity 64)
    (hmoov : find (.memory b) .whole .moov = .ok (some moov)) (hmovie : moov.bodyStart ≤ e)
    (hcut : Share e b b') (he : b'.size = e) (hm : readMetadata (.memory b') = .ok m) :
    ∃ mvhd version, find (.memory b) (.body moov) .mvhd = .ok (some mvhd) ∧
      fieldIn (.memory b) mvhd .version = some version ∧
      mvhd.bodyStart + (Span.creation version).stop ≤ e ∧
      ((∃ seconds, m.duration = some seconds) →
        mvhd.bodyStart + (Span.duration version).stop ≤ e) := by
  obtain ⟨moov', mvhd, hmoov', hmvhd', hyields⟩ :=
    (readMetadata_eq_ok_iff (Source.memory_plain b')).mp hm
  obtain rfl := eq_of_find (hcut.find_eq hsize hmoov hmovie) hmoov'
  have hsize' : b'.size < Width.capacity 64 := Nat.lt_of_le_of_lt (he ▸ hcut.left) hsize
  obtain ⟨_, _, _, hheader⟩ :=
    (findFrom_eq_some_iff (Source.memory_plain b') hsize').mp hmvhd'
  have hbody : mvhd.bodyStart ≤ e := he ▸ hheader.bodyStart_le
  obtain ⟨version, raw, hversion, -, hraw, -, -, hduration⟩ := hyields
  refine ⟨mvhd, version, hcut.symm.find_eq hsize' hmvhd' hbody, ?_, ?_, ?_⟩
  · rw [← hversion, hcut.fieldIn_eq]
    exact he ▸ stop_le_of_fieldIn (by decide) hversion
  · exact he ▸ stop_le_of_fieldIn (Span.creation_width_pos version) hraw
  · intro hsome
    obtain ⟨seconds, hseconds⟩ := hsome
    obtain ⟨_, d, -, hd, -⟩ := (hduration seconds).mp hseconds
    exact he ▸ stop_le_of_fieldIn (Span.duration_width_pos version) hd

/-- A movie with metadata that do not depend on the bytes behind it is enclosed. -/
theorem Enclosed.of_stable (hsize : b.size < Width.capacity 64)
    (hmoov : find (.memory b) .whole .moov = .ok (some moov)) (hstop : moov.stop? = some e)
    (he : e ≤ b.size) (h : ∀ b', Share e b b' → readMetadata (.memory b') = .ok m) :
    Enclosed (.memory b) moov e := by
  obtain ⟨_, _, _, hfinds⟩ := (findFrom_eq_some_iff (Source.memory_plain b) hsize).mp hmoov
  have hmovie := hfinds.bodyStart_le_stop hsize hstop
  have hcut := share_append he []
  obtain ⟨mvhd, version, hmvhd, hversion, hcreation, hcomplete⟩ :=
    exists_enclosed hsize hmoov hmovie hcut (by simp [he]) (h _ hcut)
  refine ⟨mvhd, version, hmvhd, hversion, ?_⟩
  cases hmvhdSize : mvhd.size with
  | some size => exact .inl rfl
  | none =>
    have hopen : mvhd.stop? = none := by rw [Header.stop?, hmvhdSize]; rfl
    have hfirst := Span.version_stop_le version
    refine .inr ⟨hcreation, ?_⟩
    by_contra hnot
    rw [not_or, not_and] at hnot
    obtain ⟨seconds, hgives⟩ := givesDuration_refill hopen he (by omega) hnot.1 hnot.2
    have hfull := share_refill he
    obtain ⟨version', raw, hversion', -, -, -, -, hduration⟩ :=
      hfull.yields hsize hmoov hmovie hmvhd (by omega) (h _ hfull)
    rw [hfull.fieldIn_eq (by omega), hversion] at hversion'
    obtain rfl := Option.some.inj hversion'
    exact hnot.1 (hcomplete ⟨seconds, (hduration seconds).mpr hgives⟩)

/-- Metadata do not depend on the bytes behind the end of the movie exactly if the movie is
enclosed. -/
theorem readMetadata_stable_iff
    (hsize : b.size < Width.capacity 64) (hmoov : find (.memory b) .whole .moov = .ok (some moov))
    (hstop : moov.stop? = some e) (he : e ≤ b.size) (hm : readMetadata (.memory b) = .ok m) :
    (∀ b', Share e b b' → readMetadata (.memory b') = .ok m) ↔ Enclosed (.memory b) moov e := by
  constructor
  · exact fun h => .of_stable hsize hmoov hstop he h
  · exact fun h b' hb => h.stable hsize hmoov hstop hm hb

end Movie

/-- The movie header of the sample declares a size, so nothing behind the movie matters. -/
theorem readMetadata_sample_stable :
    find (.memory sample.bytes.toArray) .whole .moov = .ok (some sample.movie) ∧
      sample.movie.stop? = some 52 ∧ 52 ≤ sample.bytes.toArray.size ∧
      ∃ m, readMetadata (.memory sample.bytes.toArray) = .ok m ∧
        ∀ b', Share 52 sample.bytes.toArray b' → readMetadata (.memory b') = .ok m := by
  have hs := Source.memory_plain sample.bytes.toArray
  have hsize : sample.bytes.toArray.size < Width.capacity 64 := by decide
  obtain ⟨hmoov, hmvhd⟩ := sample_valid.find hs hsize rfl
  have hyields : Yields sample.field ⟨0, some (Float.ofNat 36000 / Float.ofNat 600)⟩ :=
    @yields_of_fields _ 2082844800 _ _ rfl rfl (by decide) rfl rfl (by decide) (by decide)
  have hread := sample_valid.readMetadata_eq hs hsize rfl hyields
  have henclosed : Enclosed (.memory sample.bytes.toArray) sample.movie 52 := by
    refine ⟨sample.movieHeader, 0, hmvhd, ?_, .inl rfl⟩
    rw [Layout.fieldIn_eq hs sample_valid rfl]
    rfl
  exact ⟨hmoov, rfl, by decide, _, hread,
    (readMetadata_stable_iff hsize hmoov rfl (by decide) hread).mpr henclosed⟩

/-- A movie of 24 bytes whose movie header declares no size, and twelve bytes behind it. -/
def leaking : Layout where
  before := []
  moov := [0, 0, 0, 24, 0x6D, 0x6F, 0x6F, 0x76]
  moovSize := some 24
  children := []
  mvhd := [0, 0, 0, 0, 0x6D, 0x76, 0x68, 0x64]
  mvhdSize := none
  rest := [0, 0, 0, 0, 0x7C, 0x25, 0xB0, 0x80, 0, 0, 0, 0, 0, 0, 2, 0x58, 0, 0, 0x8C, 0xA0]

theorem leaking_valid : leaking.Valid :=
  ⟨nofun, @IsHeader.compact _ [0, 0, 0, 24] rfl (by decide), nofun,
    @IsHeader.openEnded _ [0, 0, 0, 0] rfl rfl, by decide, by decide⟩

/-- The same without the bytes behind the movie. -/
def leakingCut : Layout := { leaking with rest := leaking.rest.take 8 }

theorem leakingCut_valid : leakingCut.Valid :=
  ⟨nofun, leaking_valid.moov, nofun, leaking_valid.mvhd, by decide, by decide⟩

/-- A movie header without a size takes its duration from behind the end of the movie. -/
theorem duration_from_behind_movie :
    find (.memory leaking.bytes.toArray) .whole .moov = .ok (some leaking.movie) ∧
      leaking.movie.stop? = some 24 ∧ Share 24 leaking.bytes.toArray leakingCut.bytes.toArray ∧
      readMetadata (.memory leaking.bytes.toArray) =
        .ok ⟨0, some (Float.ofNat 36000 / Float.ofNat 600)⟩ ∧
      readMetadata (.memory leakingCut.bytes.toArray) = .ok ⟨0, none⟩ := by
  have hs := Source.memory_plain leaking.bytes.toArray
  have hsize : leaking.bytes.toArray.size < Width.capacity 64 := by decide
  have hyields : Yields leaking.field ⟨0, some (Float.ofNat 36000 / Float.ofNat 600)⟩ :=
    @yields_of_fields _ 2082844800 _ _ rfl rfl (by decide) rfl rfl (by decide) (by decide)
  have hyieldsCut : Yields leakingCut.field ⟨0, none⟩ := by
    refine ⟨0, 2082844800, rfl, by decide, rfl, by decide, rfl, fun seconds => ⟨nofun, ?_⟩⟩
    intro hgives
    obtain ⟨t, d, ht, -⟩ := hgives
    contradiction
  exact ⟨(leaking_valid.find hs hsize rfl).1, rfl, ⟨by decide, by decide, by decide⟩,
    leaking_valid.readMetadata_eq hs hsize rfl hyields,
    leakingCut_valid.readMetadata_eq (Source.memory_plain _) (by decide) rfl hyieldsCut⟩

end VideoSync.Container
