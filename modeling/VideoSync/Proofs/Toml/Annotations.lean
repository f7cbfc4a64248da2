import VideoSync.Proofs.Toml.Rewriting

/-
  Comments in headers. A new table in the place of a plain value takes over its key, with the text
  before it. A comment or a line break there would stand between the brackets of the header, and
  what is written is no document any more: `parse?_put_eq_none`.
-/

namespace VideoSync.Toml

open Item Entries Document

/-! ## Headers that are not read -/

theorem Gap.startsGap_head {next : Option Char} {g : List Char} (h : Gap next g) {c : Char}
    (hc : g.head? = some c) : startsGap c = true := by
  cases h <;> cases hc
  case blank hblank => simp [startsGap, hblank]
  all_goals decide

/-- After the blanks of a gap that has more than blanks comes a comment or a line break. -/
theorem Gap.skipBlanks_append {next : Option Char} {g : List Char} (h : Gap next g)
    (hblanks : ¬ Blanks g) (rest : List Char) :
    ∃ c cs, skipBlanks (g ++ rest) = c :: cs ∧ (c = '#' ∨ c = '\n') := by
  induction h with
  | nil => exact absurd (by simp [Blanks]) hblanks
  | @blank c g hc _ ih =>
    have hg : ¬ Blanks g := fun hg => hblanks (List.forall_mem_cons.mpr ⟨hc, hg⟩)
    obtain ⟨d, cs, hskip, hd⟩ := ih hg
    refine ⟨d, cs, ?_, hd⟩
    rw [List.cons_append, skipBlanks, List.dropWhile_cons_of_pos hc]
    exact hskip
  | newline => exact ⟨_, _, rfl, .inr rfl⟩
  | comment => exact ⟨_, _, rfl, .inl rfl⟩
  | lastComment => exact ⟨_, _, rfl, .inl rfl⟩

/-- A key does not start with a comment or a line break. -/
theorem dottedKey?_eq_none {leading : String} {cs rest : List Char} {c : Char}
    (h : skipBlanks cs = c :: rest) (hc : c = '#' ∨ c = '\n') : dottedKey? leading cs = none := by
  have hname : name? (c :: rest) = none := by
    rcases hc with rfl | rfl <;>
    · rw [name?, List.takeWhile_cons_of_neg (by decide)]
      · rfl
      · rintro tail ⟨⟩
      · rintro tail ⟨⟩
  rw [dottedKey?, keys?, h]
  simp [hname]

/-- A header with more than blanks before its key. -/
structure Statement.Spoiled (key : Key) (before : String) : Prop where
  before : Leading before.toList
  key_before : Leading key.before.toList
  annotated : ¬ Blanks key.before.toList

namespace Statement.Spoiled

variable {key : Key} {before : String}

/-- Where such a header stands nothing is read. -/
theorem statementsFrom_eq_none (h : Spoiled key before) (after : String) (rest : List Char)
    (fuel : Nat) :
    statementsFrom fuel (clean (header false [] key before after).text.toList ++ rest) = none := by
  cases fuel with
  | zero => rfl
  | succ fuel =>
    have hnot : ¬ Blanks (clean key.before.toList) := fun hclean =>
      h.annotated (blanks_of_clean h.key_before.returns hclean)
    set tail := clean (key.written.toList ++ key.after.toList ++ ']' :: (after.toList ++ ['\n'])) ++
      rest with htail
    have htext : clean (header false [] key before after).text.toList ++ rest =
        clean before.toList ++ '[' :: (clean key.before.toList ++ tail) := by
      simp [text, keyText, keyText.between, htail, clean_cons_of_ne]
    have hhead : (clean key.before.toList ++ tail).head? ≠ some '[' := by
      intro hhead
      cases hcs : clean key.before.toList with
      | nil => exact hnot (by simp [hcs, Blanks])
      | cons c cs =>
        rw [hcs] at hhead
        have := (h.key_before.gap none).startsGap_head (c := '[') (by rw [hcs]; exact hhead)
        exact absurd this (by decide)
    obtain ⟨c, cs, hskip, hc⟩ := (h.key_before.gap none).skipBlanks_append hnot tail
    obtain ⟨htrivia, -⟩ := taken_gap h.before.gap (c := '[') (by decide)
      (clean key.before.toList ++ tail)
    rw [htext, statementsFrom]
    simp only [htrivia, List.cons_ne_nil, if_false]
    rw [read?_bracket hhead, header?_eq, dottedKey?_eq_none hskip hc]
    rfl

/-- Nor is anything read after statements that lead to such a header. -/
theorem statementsFrom_append_eq_none (h : Spoiled key before) {pre : List Statement}
    (hpre : ∀ s ∈ pre, s.Spelled) (after : String) (rest : List Char) (fuel : Nat) :
    statementsFrom fuel (clean (textOf pre).toList ++
      (clean (header false [] key before after).text.toList ++ rest)) = none := by
  induction pre generalizing fuel with
  | nil =>
    rw [textOf, String.toList_empty, clean_nil, List.nil_append]
    exact h.statementsFrom_eq_none after rest fuel
  | cons s pre ih =>
    cases fuel with
    | zero => rfl
    | succ fuel =>
      obtain ⟨hs, hpre⟩ := List.forall_mem_cons.mp hpre
      rw [textOf, String.toList_append, clean_append, List.append_assoc]
      obtain ⟨s', leading, c, cs, -, htrivia, htaken, hread⟩ := Statement.read?_text hs
        (clean (textOf pre).toList ++
          (clean (header false [] key before after).text.toList ++ rest))
      rw [statementsFrom]
      simp only [htrivia, htaken, hread, ih hpre, List.cons_ne_nil, if_false, Option.bind_eq_bind,
        Option.bind_some, Option.bind_none]

/-- The text does not start with the mark that tells the byte order. -/
theorem head_ne_mark (h : Spoiled key before) {pre : List Statement}
    (hpre : ∀ s ∈ pre, s.Spelled) (after : String) (rest : List Char) :
    (clean (textOf pre).toList ++
      (clean (header false [] key before after).text.toList ++ rest)).head? ≠ some '\uFEFF' := by
  intro hmark
  cases pre with
  | nil =>
    have htext : clean (header false [] key before after).text.toList =
        clean before.toList ++ '[' ::
          clean ((keyText [key]).toList ++ ']' :: (after.toList ++ ['\n'])) := by
      simp [text, clean_cons_of_ne]
    rw [textOf, String.toList_empty, clean_nil, List.nil_append, htext, List.append_assoc] at hmark
    cases hcs : clean before.toList with
    | nil => simp [hcs] at hmark
    | cons c cs =>
      rw [hcs] at hmark
      have := (h.before.gap none).startsGap_head (c := '\uFEFF') (by rw [hcs]; exact hmark)
      exact absurd this (by decide)
  | cons s pre =>
    obtain ⟨ss, -, hread⟩ := statementsFrom_textOf hpre [] .nil (Nat.lt_succ_self _)
    have hne : clean (textOf (s :: pre)).toList ≠ [] := by
      have := length_text s
      rw [textOf, String.toList_append, clean_append]
      exact List.append_ne_nil_of_left_ne_nil (List.length_pos_iff.mp this) _
    obtain ⟨c, cs, hcs⟩ := List.exists_cons_of_ne_nil hne
    rw [hcs] at hmark hread
    obtain rfl : c = '\uFEFF' := by simpa using hmark
    rw [List.append_nil, statementsFrom_mark] at hread
    contradiction

/-- A text with such a header after spelled statements is not read. -/
theorem statements?_eq_none (h : Spoiled key before) {pre : List Statement}
    (hpre : ∀ s ∈ pre, s.Spelled) (after : String) (post : List Statement) (trailing : String) :
    statements? (String.ofList (clean
      (textOf (pre ++ header false [] key before after :: post) ++ trailing).toList)) = none := by
  have hmark := h.head_ne_mark hpre after (clean (textOf post).toList ++ clean trailing.toList)
  have hnone := h.statementsFrom_append_eq_none hpre after
    (clean (textOf post).toList ++ clean trailing.toList)
  rw [textOf_append, textOf, statements?, String.toList_ofList, String.toList_append,
    String.toList_append, String.toList_append, clean_append, clean_append, clean_append,
    List.append_assoc, List.append_assoc, withoutMark_eq hmark]
  exact hnone _

end Statement.Spoiled

/-! ## Documents with such a header -/

namespace Document

theorem blocks_append (path : List Key) (first second : Entries) (last : Nat) :
    (blocks last path (first ++ second)).2 = (blocks last path first).2 ++
      (blocks (blocks last path first).1 path second).2 := by
  induction first generalizing last with
  | nil => rfl
  | cons e rest ih =>
    obtain ⟨key, item⟩ := e
    rw [List.cons_append, blocks, blocks]
    simp only [ih, List.append_assoc]

/-- Lines have no headers. -/
theorem blocks_of_lineTree {tree : Entries} (h : LineTree tree) (last : Nat) (path : List Key) :
    (blocks last path tree).2 = [] := by
  induction h generalizing last path with
  | nil => rfl
  | value _ _ _ ih => simp [blocks_append, ih, blocks, itemBlocks]
  | dotted _ _ _ _ _ ih ihsub => simp [blocks_append, ih, blocks, itemBlocks, ihsub]

theorem blocks_eq_nil {tree : Entries} (h : LineTree (Entries.respell .plainKeys tree)) (last : Nat)
    (path : List Key) : (blocks last path tree).2 = [] := by
  have hmap := blocks_respell .plainKeys (fun _ => rfl) tree last path
  have hnone := blocks_of_lineTree h last (path.map Respelling.plainKeys.key)
  rw [hmap] at hnone
  exact List.map_eq_nil_iff.mp hnone

theorem blocksStatements_append (first : Bool) (bs more : List Block) :
    ∃ first', blocksStatements first (bs ++ more) =
      blocksStatements first bs ++ blocksStatements first' more := by
  induction bs generalizing first with
  | nil => exact ⟨first, rfl⟩
  | cons b rest ih =>
    rw [List.cons_append, blocksStatements, blocksStatements]
    split
    · obtain ⟨first', h⟩ := ih false
      exact ⟨first', by rw [h, List.append_assoc]⟩
    · exact ih first

/-- The tables of entries with one new table: it is one of them, and the others are spelled. -/
theorem sortedBlocks_spelled_or {pre post : Entries} (key : Key) {tree : Entries}
    (hpre : pre.Spelled) (hpost : post.Spelled)
    (htree : LineTree (Entries.respell .plainKeys tree)) :
    ∃ b : Block, b.path = [key] ∧ b.head = {} ∧ b.element = false ∧
      b ∈ sortedBlocks (pre ++ (key, .table {} tree) :: post) ∧
      ∀ b' ∈ sortedBlocks (pre ++ (key, .table {} tree) :: post), b'.Spelled ∨ b' = b := by
  set last := (blocks 0 [] pre).1
  have hitem : itemBlocks last [key] (.table {} tree) =
      ((blocks last [key] tree).1, [⟨last, [key], {}, false, tree⟩]) := by
    rw [itemBlocks]
    simp [blocks_eq_nil htree]
  have hblocks : (blocks 0 [] (pre ++ (key, .table {} tree) :: post)).2 = (blocks 0 [] pre).2 ++
      ⟨last, [key], {}, false, tree⟩ :: (blocks (blocks last [key] tree).1 [] post).2 := by
    rw [blocks_append, blocks, List.nil_append, hitem]
    rfl
  have hmem (b : Block) : b ∈ sortedBlocks (pre ++ (key, .table {} tree) :: post) ↔
      b ∈ (blocks 0 [] (pre ++ (key, .table {} tree) :: post)).2 :=
    (List.mergeSort_perm ..).mem_iff
  refine ⟨⟨last, [key], {}, false, tree⟩, rfl, rfl, rfl, ?_, fun b hb => ?_⟩
  · rw [hmem, hblocks]
    simp
  · rw [hmem, hblocks] at hb
    rcases List.mem_append.mp hb with hb | hb
    · exact .inl (blocks_spelled pre (by simp) (entriesSpelled_iff.mpr hpre) b hb)
    · rcases List.mem_cons.mp hb with rfl | hb
      · exact .inr rfl
      · exact .inl (blocks_spelled post (by simp) (entriesSpelled_iff.mpr hpost) b hb)

/-- What is written for entries with a new table under a key that has a comment or a line break
before it: what comes before the header of that table is spelled. -/
theorem exists_spoiled {d : Document} {pre post : Entries} {key : Key} {tree : Entries}
    (hentries : d.entries = pre ++ (key, .table {} tree) :: post) (hpre : pre.Spelled)
    (hpost : post.Spelled) (htree : LineTree (Entries.respell .plainKeys tree))
    (hsound : ∀ b ∈ sortedBlocks d.entries, b.Sound) (hkey : Leading key.before.toList)
    (hannotated : ¬ Blanks key.before.toList) :
    ∃ before ss more, d.statements = ss ++ .header false [] key before "" :: more ∧
      (∀ s ∈ ss, s.Spelled) ∧ Statement.Spoiled key before := by
  have hlines (l : Line) (hl : l ∈ entryLines [] d.entries) : l.Spelled := by
    rw [hentries, entryLines_append, entryLines, Item.itemLines, if_neg (by simp),
      List.nil_append] at hl
    rcases List.mem_append.mp hl with hl | hl
    · exact EntriesSpelled.lines pre (by simp) (entriesSpelled_iff.mpr hpre) l hl
    · exact EntriesSpelled.lines post (by simp) (entriesSpelled_iff.mpr hpost) l hl
  obtain ⟨b, hpath, hhead, helement, hmem, hall⟩ :=
    sortedBlocks_spelled_or key hpre hpost htree
  rw [← hentries] at hmem hall
  -- up to the first place where the new table stands all other tables are spelled
  obtain ⟨bs, bs', hsplit, hnot⟩ := List.eq_append_cons_of_mem hmem
  have hbs (b' : Block) (hb' : b' ∈ bs) : b'.Spelled ∧ b'.Sound := by
    have hmem' : b' ∈ sortedBlocks d.entries := by simp [hsplit, hb']
    refine ⟨(hall b' hmem').resolve_right ?_, hsound b' hmem'⟩
    rintro rfl
    exact hnot hb'
  have hheader : b.hasHeader = true := by simp [Block.hasHeader, hhead]
  obtain ⟨first, happend⟩ := blocksStatements_append (valueLines [] d.entries == "") bs (b :: bs')
  refine ⟨if first then "" else "\n", (entryLines [] d.entries).map .assign ++
    blocksStatements (valueLines [] d.entries == "") bs,
    b.passage.lines.map .assign ++ blocksStatements false bs', ?_, fun s hs => ?_, ?_⟩
  · rw [statements, hsplit, happend, blocksStatements, if_pos hheader, Block.statements,
      Block.passage, hpath, hhead, helement, List.append_assoc]
    rfl
  · rcases List.mem_append.mp hs with hs | hs
    · obtain ⟨l, hl, rfl⟩ := List.mem_map.mp hs
      exact hlines l hl
    · exact blocksStatements_spelled hbs _ s hs
  · refine ⟨?_, hkey, hannotated⟩
    split
    · exact ⟨fun _ => .nil, by simp⟩
    · exact leading_newline

/-- A table in the place of a plain value that has a comment or a line break before its key: what is
written is not read again. -/
theorem parse?_put_eq_none {text : String} {d : Document} (hd : parseStrictly? text = some d)
    {name : String} (hannotated : ¬ d.Unannotated name) {tree : Entries}
    (htree : LineTree (Entries.respell .plainKeys tree)) :
    parse? (d.put name (.table {} tree)).render = none := by
  obtain ⟨ss, p, hss, hp, hentries⟩ := exists_of_parseStrictly? hd
  obtain ⟨hall, -⟩ := statements?_spelled hss
  have hstart : Progress.Spelled {} := ⟨.nil, by simp⟩
  have hspelled : d.entries.Spelled := by
    rw [hentries]
    exact (hstart.takeAllStrictly hall hp).entries
  obtain ⟨⟨key, item⟩, he, hname, hblanks⟩ :
      ∃ e ∈ d.entries, e.1.name = name ∧ ¬ Blanks e.1.before.toList := by
    simpa [Unannotated] using hannotated
  have hvalue := (blanks_or_isValue (hspelled.items _ he)).resolve_left hblanks
  have hkey := leading_of_isValue (hspelled.items _ he) hvalue
  have hreplaced : Replaced ss p name tree (d.put name (.table {} tree)) :=
    ⟨hp, htree, by rw [put, put, hentries]⟩
  obtain ⟨pre, post, hsplit⟩ := List.append_of_mem he
  rw [hsplit] at hspelled
  obtain ⟨hpre, hpost⟩ := hspelled.find?_around
  have hput : (d.put name (.table {} tree)).entries = pre ++ (key, .table {} tree) :: post := by
    have hfind : (find? d.entries key.name).isSome := by rw [hsplit, find?_split hpre]; rfl
    rw [put, ← hname]
    dsimp only
    rw [if_pos hfind, hsplit, set_split hpre hpost]
  obtain ⟨before, pre', post', hstatements, hpre', hspoiled⟩ := exists_spoiled hput
    (hspelled.sublist (List.sublist_append_left ..))
    (hspelled.sublist ((List.sublist_cons_self ..).trans (List.sublist_append_right ..)))
    htree hreplaced.sound hkey hblanks
  rw [render_eq hreplaced.sound, parse?_eq, hstatements,
    hspoiled.statements?_eq_none hpre' "" post', Option.bind_none]

end Document

end VideoSync.Toml
