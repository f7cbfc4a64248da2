import VideoSync.Proofs.Container.Fields
import VideoSync.Proofs.Container.Walk

/-
  The grammar of containers with readable metadata. A `Layout` cuts bytes into boxes before the
  movie, the header of the movie box, boxes before the movie header, the header of that, and a
  rest; it is `Valid` when these are what they are called and the movie header lies in the movie.

  Reading metadata from memory accepts exactly the bytes of valid layouts whose fields say
  something, and gives what they say (`readMetadata_memory_iff`).
-/

namespace VideoSync.Container

open VideoSync.Storage (Source)

/-- Bytes cut into the pieces that the reader looks at. -/
structure Layout where
  before : List (List UInt8)
  moov : List UInt8
  moovSize : Option Nat
  children : List (List UInt8)
  mvhd : List UInt8
  mvhdSize : Option Nat
  rest : List UInt8

namespace Layout

/-- The pieces one after another. -/
def bytes (l : Layout) : List UInt8 :=
  l.before.flatten ++ l.moov ++ l.children.flatten ++ l.mvhd ++ l.rest

/-- The header of the movie. -/
def movie (l : Layout) : Header := ⟨.moov, l.before.flatten.length, l.moov.length, l.moovSize⟩

/-- The header of the movie header box. -/
def movieHeader (l : Layout) : Header :=
  ⟨.mvhd, l.movie.bodyStart + l.children.flatten.length, l.mvhd.length, l.mvhdSize⟩

/-- The pieces are what they are called. The boxes among the children end where the movie header
starts, so they are inside the movie as well. -/
structure Valid (l : Layout) : Prop where
  before : ∀ x ∈ l.before, ∃ tag, tag ≠ .moov ∧ IsBox tag x
  moov : IsHeader .moov l.moov l.moovSize
  children : ∀ x ∈ l.children, ∃ tag, tag ≠ .mvhd ∧ IsBox tag x
  mvhd : IsHeader .mvhd l.mvhd l.mvhdSize
  starts : ∀ stop ∈ l.movie.stop?, l.movieHeader.start < stop
  ends : ∀ stop ∈ l.movie.stop?, ∀ e ∈ l.movieHeader.stop?, e ≤ stop

/-- The number in a span of the rest, if all its bytes are there and inside the movie header. -/
def field (l : Layout) (span : Span) : Option Nat :=
  let bytes := (l.rest.drop span.offset).take span.width
  if bytes.length = span.width ∧
      ∀ stop ∈ l.movieHeader.stop?, l.movieHeader.bodyStart + span.stop ≤ stop then
    some (bigEndian bytes)
  else none

variable {s : Source} {l : Layout}

theorem tail_zero (hl : s.bytes.toList = l.bytes) :
    s.tail 0 = l.before.flatten ++ (l.moov ++ (l.children.flatten ++ (l.mvhd ++ l.rest))) := by
  unfold Source.tail
  rw [hl, List.drop_zero, bytes]
  simp only [List.append_assoc]

/-- The movie of a valid layout is the first one. -/
theorem Valid.finds_movie (h : l.Valid) (hl : s.bytes.toList = l.bytes) :
    Finds (s.tail 0) none .moov 0 l.before l.moov (l.children.flatten ++ (l.mvhd ++ l.rest))
      l.movie where
  split := tail_zero hl
  others := h.before
  isHeader := h.moov
  header := by rw [Nat.zero_add]; rfl
  before := nofun
  within := nofun

/-- So is the movie header in the movie. -/
theorem Valid.finds_movieHeader (h : l.Valid) (hl : s.bytes.toList = l.bytes) :
    Finds (s.tail l.movie.bodyStart) l.movie.stop? .mvhd l.movie.bodyStart l.children l.mvhd l.rest
      l.movieHeader where
  split := (h.finds_movie hl).tail_bodyStart
  others := h.children
  isHeader := h.mvhd
  header := rfl
  before := h.starts
  within := h.ends

/-- The reader finds the boxes of a valid layout. -/
theorem Valid.find (h : l.Valid) (hs : s.Plain) (hb : s.bytes.size < Width.capacity 64)
    (hl : s.bytes.toList = l.bytes) :
    find s .whole .moov = .ok (some l.movie) ∧
      find s (.body l.movie) .mvhd = .ok (some l.movieHeader) := by
  exact ⟨(findFrom_eq_some_iff hs hb).mpr ⟨_, _, _, h.finds_movie hl⟩,
    (findFrom_eq_some_iff hs hb).mpr ⟨_, _, _, h.finds_movieHeader hl⟩⟩

/-- What the reader finds is a valid layout. -/
theorem exists_valid (hs : s.Plain) (hb : s.bytes.size < Width.capacity 64) {moov mvhd : Header}
    (hmoov : find s .whole .moov = .ok (some moov))
    (hmvhd : find s (.body moov) .mvhd = .ok (some mvhd)) :
    ∃ l : Layout, l.Valid ∧ s.bytes.toList = l.bytes ∧ l.movie = moov ∧ l.movieHeader = mvhd := by
  obtain ⟨before, head, rest, hmovie⟩ := (findFrom_eq_some_iff hs hb).mp hmoov
  obtain ⟨children, head', rest', hheader⟩ := (findFrom_eq_some_iff hs hb).mp hmvhd
  have hrest := hheader.split
  rw [Scope.body, hmovie.tail_bodyStart] at hrest
  let l : Layout := ⟨before, head, moov.size, children, head', mvhd.size, rest'⟩
  have hm : l.movie = moov := by
    rw [hmovie.header, Scope.whole, Nat.zero_add]
    rfl
  have hh : l.movieHeader = mvhd := by
    rw [hheader.header, Scope.body, ← hm]
    rfl
  refine ⟨l, ⟨hmovie.others, hmovie.isHeader, hheader.others, hheader.isHeader, ?_, ?_⟩, ?_, hm, hh⟩
  · rw [hm, hh]
    exact hheader.before
  · rw [hm, hh]
    exact hheader.within
  · have hall := hmovie.split
    rw [hrest, Scope.whole, Source.tail, List.drop_zero] at hall
    rw [hall, bytes]
    simp only [List.append_assoc, l]

/-- The reader sees the fields of a layout. -/
theorem fieldIn_eq (hs : s.Plain) (h : l.Valid) (hl : s.bytes.toList = l.bytes) :
    fieldIn s l.movieHeader = l.field := by
  funext span
  have htail : s.tail (l.movieHeader.bodyStart + span.offset) = l.rest.drop span.offset := by
    rw [Source.tail_add, (h.finds_movieHeader hl).tail_bodyStart]
  refine Option.ext fun value => ?_
  rw [fieldIn_eq_some_iff, readField_eq_ok_iff hs, htail, Nat.add_assoc]
  unfold field Span.stop
  dsimp only
  split
  · next hpresent =>
    obtain ⟨hlength, hinside⟩ := hpresent
    rw [List.length_take] at hlength
    constructor
    · intro hread
      obtain ⟨-, -, rfl⟩ := hread
      rfl
    · intro heq
      exact ⟨hinside, by omega, (Option.some.inj heq).symm⟩
  · next habsent =>
    constructor
    · intro hread
      obtain ⟨hinside, hlong, -⟩ := hread
      exact absurd ⟨List.length_take_of_le hlong, hinside⟩ habsent
    · nofun

/-- What a valid layout says is read from its bytes. -/
theorem Valid.readMetadata_eq (h : l.Valid) (hs : s.Plain) (hb : s.bytes.size < Width.capacity 64)
    (hl : s.bytes.toList = l.bytes) {m : Metadata} (hyields : Yields l.field m) :
    readMetadata s = .ok m := by
  obtain ⟨hmoov, hmvhd⟩ := h.find hs hb hl
  rw [← fieldIn_eq hs h hl] at hyields
  exact (readMetadata_eq_ok_iff hs).mpr ⟨_, _, hmoov, hmvhd, hyields⟩

end Layout

/-- Reading metadata from memory, which holds fewer than `2 ^ 64` bytes, succeeds exactly on the
bytes of a valid layout that says something, and gives what it says. -/
theorem readMetadata_memory_iff (b : Bytes) (hb : b.size < Width.capacity 64) (m : Metadata) :
    readMetadata (.memory b) = .ok m ↔
      ∃ l : Layout, b.toList = l.bytes ∧ l.Valid ∧ Yields l.field m := by
  have hs := Source.memory_plain b
  constructor
  · intro hread
    obtain ⟨moov, mvhd, hmoov, hmvhd, hyields⟩ := (readMetadata_eq_ok_iff hs).mp hread
    obtain ⟨l, hvalid, hl, rfl, rfl⟩ := Layout.exists_valid hs hb hmoov hmvhd
    rw [Layout.fieldIn_eq hs hvalid hl] at hyields
    exact ⟨l, hl, hvalid, hyields⟩
  · intro hlayout
    obtain ⟨l, hl, hvalid, hyields⟩ := hlayout
    exact hvalid.readMetadata_eq hs hb hl hyields

/-- A movie of one minute from 1970 on, with a free box before it and another one in it. -/
def sample : Layout where
  before := [[0, 0, 0, 8, 0x66, 0x72, 0x65, 0x65]]
  moov := [0, 0, 0, 44, 0x6D, 0x6F, 0x6F, 0x76]
  moovSize := some 44
  children := [[0, 0, 0, 8, 0x66, 0x72, 0x65, 0x65]]
  mvhd := [0, 0, 0, 28, 0x6D, 0x76, 0x68, 0x64]
  mvhdSize := some 28
  rest := [0, 0, 0, 0, 0x7C, 0x25, 0xB0, 0x80, 0, 0, 0, 0, 0, 0, 2, 0x58, 0, 0, 0x8C, 0xA0]

theorem sample_valid : sample.Valid := by
  have hfree : IsBox ⟨0x66, 0x72, 0x65, 0x65⟩ [0, 0, 0, 8, 0x66, 0x72, 0x65, 0x65] :=
    ⟨[0, 0, 0, 8, 0x66, 0x72, 0x65, 0x65], [], rfl,
      @IsHeader.compact _ [0, 0, 0, 8] rfl (by decide)⟩
  refine ⟨?_, ?_, ?_, ?_, by decide, by decide⟩
  · intro x hx
    obtain rfl := List.mem_singleton.mp hx
    exact ⟨_, by decide, hfree⟩
  · exact @IsHeader.compact _ [0, 0, 0, 44] rfl (by decide)
  · intro x hx
    obtain rfl := List.mem_singleton.mp hx
    exact ⟨_, by decide, hfree⟩
  · exact @IsHeader.compact _ [0, 0, 0, 28] rfl (by decide)

/-- Fields that are known say what they are. -/
theorem yields_of_fields {field : Span → Option Nat} {raw timescale duration : Nat}
    (hversion : field .version = some 0) (hcreation : field (.creation 0) = some raw)
    (hrange : raw < Width.capacity 63) (ht : field (.timescale 0) = some timescale)
    (hd : field (.duration 0) = some duration) (hne : timescale ≠ 0)
    (hknown : duration ≠ Width.capacity 32 - 1) :
    Yields field ⟨raw - epochShift, some (Float.ofNat duration / Float.ofNat timescale)⟩ := by
  refine ⟨0, raw, hversion, Nat.zero_le 1, hcreation, hrange, rfl, fun seconds => ?_⟩
  constructor
  · intro heq
    obtain rfl := Option.some.inj heq
    exact ⟨timescale, duration, ht, hd, hne, hknown, rfl⟩
  · intro hgives
    obtain ⟨t, d, ht', hd', -, -, rfl⟩ := hgives
    obtain rfl := Option.some.inj (ht.symm.trans ht')
    obtain rfl := Option.some.inj (hd.symm.trans hd')
    rfl

theorem readMetadata_sample :
    sample.bytes.toArray.size < Width.capacity 64 ∧
      readMetadata (.memory sample.bytes.toArray) =
        .ok ⟨0, some (Float.ofNat 36000 / Float.ofNat 600)⟩ := by
  have hsize : sample.bytes.toArray.size < Width.capacity 64 := by decide
  have hyields : Yields sample.field ⟨0, some (Float.ofNat 36000 / Float.ofNat 600)⟩ :=
    @yields_of_fields _ 2082844800 _ _ rfl rfl (by decide) rfl rfl (by decide) (by decide)
  exact ⟨hsize, (readMetadata_memory_iff _ hsize _).mpr ⟨sample, rfl, sample_valid, hyields⟩⟩

end VideoSync.Container
