import Mathlib.Data.List.Nodup
import VideoSync.Proofs.Toml.Rendering

/-
  A table in the place of what a top-level name had. The statements that are then written build a
  document again, and for each name on its own: the new table for the name that was replaced, and
  for any other name what it was built from before. `takeAllStrictly_replaced` says so of all
  statements that differ from the written ones in their spelling only.
-/

namespace VideoSync.Toml

open Item Entries Document

/-! ## The passages of what is written -/

/-- Where a passage stands in its document. -/
def Passage.order (p : Passage) : Nat := p.head.place.getD 0

theorem outline_places (headers : Nat) (ss : List Statement) :
    (∀ p ∈ (outline headers ss).2, p.head.origin = .header ∧ p.head.place = some p.order ∧
      headers < p.order) ∧
    (outline headers ss).2.Pairwise fun p q => p.order < q.order := by
  induction ss generalizing headers with
  | nil => simp [outline]
  | cons s rest ih =>
    cases s with
    | assign => exact ih headers
    | header element path key before after =>
      obtain ⟨hall, hordered⟩ := ih (headers + 1)
      rw [outline]
      refine ⟨List.forall_mem_cons.mpr ⟨⟨rfl, rfl, Nat.lt_succ_self _⟩, fun p hp => ?_⟩,
        List.pairwise_cons.mpr ⟨fun p hp => (hall p hp).2.2, hordered⟩⟩
      exact ⟨(hall p hp).1, (hall p hp).2.1, Nat.lt_of_succ_lt (hall p hp).2.2⟩

theorem outline_assign_append (headers : Nat) (lines : List Line) (ss : List Statement) :
    outline headers (lines.map .assign ++ ss) =
      (lines ++ (outline headers ss).1, (outline headers ss).2) := by
  induction lines with
  | nil => rfl
  | cons l rest ih => rw [List.map_cons, List.cons_append, outline, ih]; rfl

/-- The passages of the statements that are written for tables are the tables' own. -/
theorem outline_blocksStatements (headers : Nat) (first : Bool) {bs : List Block}
    (h : ∀ b ∈ bs, b.Sound) :
    (outline headers (blocksStatements first bs)).1 = [] ∧
    (outline headers (blocksStatements first bs)).2.map (Passage.respell .bare) =
      ((bs.filter Block.hasHeader).map Block.passage).map (Passage.respell .bare) := by
  induction bs generalizing headers first with
  | nil => exact ⟨rfl, rfl⟩
  | cons b rest ih =>
    obtain ⟨hb, hrest⟩ := List.forall_mem_cons.mp h
    rw [blocksStatements]
    cases hheader : b.hasHeader with
    | false =>
      rw [List.filter_cons_of_neg (by simp [hheader])]
      exact ih headers first hrest
    | true =>
      obtain ⟨hnil, hmap⟩ := ih (headers + 1) false hrest
      rw [List.filter_cons_of_pos hheader, if_pos rfl, Block.statements, List.cons_append, outline,
        outline_assign_append, hnil, List.append_nil]
      refine ⟨rfl, ?_⟩
      rw [List.map_cons, List.map_cons, List.map_cons, hmap]
      congr 1
      have horigin := hb.header hheader
      simp [Passage.respell, Block.passage, Respelling.bare, horigin]

/-! ## Statements up to spelling -/

/-- A statement in another spelling. -/
def Statement.respell (r : Respelling) : Statement → Statement
  | .header element path key _ _ => .header element (path.map r.key) (r.key key) "" ""
  | .assign l => .assign (l.respell r)

theorem Line.respell_bare_bare (l : Line) : (l.respell .bare).respell .bare = l.respell .bare := by
  simp [respell, Respelling.bare, Key.plain]

/-- What statements say up to spelling, their lines and passages say. -/
theorem outline_respell (headers : Nat) (ss : List Statement) :
    (outline headers (ss.map (Statement.respell .bare))).1.map (Line.respell .bare) =
        (outline headers ss).1.map (Line.respell .bare) ∧
    (outline headers (ss.map (Statement.respell .bare))).2.map (Passage.respell .bare) =
        (outline headers ss).2.map (Passage.respell .bare) := by
  induction ss generalizing headers with
  | nil => exact ⟨rfl, rfl⟩
  | cons s rest ih =>
    cases s with
    | assign l =>
      obtain ⟨hlines, hpassages⟩ := ih headers
      refine ⟨?_, hpassages⟩
      simp only [List.map_cons, Statement.respell, outline, hlines, l.respell_bare_bare]
    | header element path key before after =>
      obtain ⟨hlines, hpassages⟩ := ih (headers + 1)
      refine ⟨rfl, ?_⟩
      simp only [List.map_cons, Statement.respell, outline, hpassages, Passage.respell, hlines]
      simp [Respelling.bare, Key.plain]

/-! ## Putting an item in the place of a name -/

namespace Document

variable {d : Document} {name : String} {item : Item}

theorem restrict_put_of_ne {other : String} (h : other ≠ name) :
    restrict other (d.put name item).entries = restrict other d.entries := by
  rw [put]
  dsimp only
  split
  · exact restrict_set_of_ne h
  · rw [restrict_append, restrict_singleton_of_ne (by simpa [Key.plain] using h.symm),
      List.append_nil]

theorem put_cases (h : d.entries.WellMade) (item : Item) :
    (∃ pre old post, d.entries = pre ++ (.plain name, old) :: post ∧ find? pre name = none ∧
      find? post name = none ∧ (d.put name item).entries = pre ++ (.plain name, item) :: post) ∨
    (find? d.entries name = none ∧
      (d.put name item).entries = d.entries ++ [(.plain name, item)]) := by
  cases hfind : find? d.entries name with
  | none => exact .inr ⟨rfl, by simp [put, hfind]⟩
  | some old =>
    have hfind' : find? d.entries (Key.plain name).name = some old := hfind
    obtain ⟨pre, post, hsplit, hpre, hpost, -⟩ := h.split rfl hfind'
    refine .inl ⟨pre, old, post, hsplit, hpre, hpost, ?_⟩
    have hset : set (pre ++ (.plain name, old) :: post) (Key.plain name).name item =
        pre ++ (.plain name, item) :: post := set_split hpre hpost
    rw [← hsplit] at hset
    rw [put]
    dsimp only
    rw [if_pos (by simp [hfind])]
    exact hset

theorem restrict_eq_nil {entries : Entries} (h : find? entries name = none) :
    restrict name entries = [] :=
  List.filter_eq_nil_iff.mpr fun e he => by simpa using find?_eq_none.mp h e he

theorem restrict_put_self (h : d.entries.WellMade) :
    restrict name (d.put name item).entries = [(.plain name, item)] := by
  have hself (rest : Entries) : restrict name ((.plain name, item) :: rest) =
      (.plain name, item) :: restrict name rest := restrict_cons_self rest
  rcases put_cases h item with ⟨pre, old, post, -, hpre, hpost, hput⟩ | ⟨hnone, hput⟩
  · rw [hput, restrict_append, restrict_eq_nil hpre, hself, restrict_eq_nil hpost, List.nil_append]
  · rw [hput, restrict_append, restrict_eq_nil hnone, hself, restrict_nil, List.nil_append]

theorem put_wellMade (h : d.entries.WellMade) (hitem : item.WellMade) :
    (d.put name item).entries.WellMade := by
  rcases put_cases h item with ⟨pre, old, post, heq, hpre, hpost, hput⟩ | ⟨hnone, hput⟩
  · rw [heq] at h
    rw [hput]
    exact h.replace hitem
  · rw [hput]
    exact h.append_singleton hnone rfl hitem

theorem put_respell :
    Entries.respell .plainKeys (d.put name item).entries =
      ({ d with entries := Entries.respell .plainKeys d.entries }.put name
        (item.respell .plainKeys)).entries := by
  rw [put, put]
  dsimp only
  rw [find?_respell, Option.isSome_map]
  split
  · rw [set_respell]
  · rw [respell_append, respell_singleton]
    rfl

end Document

/-! ## Building what is written -/

theorem filter_documentSteps (name : String) (lines : List Line) (passages : List Passage) :
    (documentSteps lines passages).filter (·.name == name) =
      documentSteps (lines.filter fun l => topName l.path l.key == name)
        (passages.filter fun p => topName p.path p.key == name) := by
  rw [documentSteps, documentSteps, List.filter_append, List.filter_map, List.filter_map]
  rfl

/-- The passages that are written for some entries, in order. -/
def writtenPassages (entries : Entries) : List Passage :=
  ((sortedBlocks entries).filter Block.hasHeader).map Block.passage

theorem writtenPassages_perm (entries : Entries) :
    (writtenPassages entries).Perm (entryPassages [] entries) := by
  rw [← blocks_passages [] entries 0]
  exact ((List.mergeSort_perm ..).filter _).map _

/-- Written passages that all have places stand in the order of their places. -/
theorem writtenPassages_ordered (entries : Entries) {keep : Passage → Bool}
    (hplaces : ∀ p ∈ (writtenPassages entries).filter keep, p.head.place = some p.order) :
    ((writtenPassages entries).filter keep).Pairwise fun p q => p.order ≤ q.order := by
  have hsorted : (sortedBlocks entries).Pairwise fun a b => a.place ≤ b.place := by
    have h := @List.pairwise_mergeSort _ (fun a b : Block => decide (a.place ≤ b.place))
      (fun a b c hab hbc => by simp_all; omega) (fun a b => by simp; omega)
      (blocks 0 [] entries).2
    rw [sortedBlocks]
    simpa using h
  rw [writtenPassages, List.filter_map] at hplaces ⊢
  rw [List.pairwise_map]
  refine ((hsorted.filter _).filter _).imp_of_mem fun {a b} ha hb hab => ?_
  have hplace {b : Block} (hb : b ∈ ((sortedBlocks entries).filter Block.hasHeader).filter
      (keep ∘ Block.passage)) : b.passage.order = b.place := by
    have hmem : b ∈ (blocks 0 [] entries).2 :=
      (List.mergeSort_perm ..).mem_iff.mp (List.mem_of_mem_filter (List.mem_of_mem_filter hb))
    exact (place_of_mem_blocks entries hmem (hplaces _ (List.mem_map_of_mem hb))).symm
  rw [hplace ha, hplace hb]
  exact hab

/-- The lines and passages of one name are written as they were, if its entries are. -/
theorem filter_writtenPassages {entries entries' : Entries} {passages : List Passage}
    (hperm : (entryPassages [] entries).Perm passages)
    (hordered : passages.Pairwise fun p q => p.order < q.order)
    (hplaces : ∀ p ∈ passages, p.head.place = some p.order) {name : String}
    (hname : restrict name entries' = restrict name entries) :
    (writtenPassages entries').filter (fun p => topName p.path p.key == name) =
      passages.filter (fun p => topName p.path p.key == name) := by
  have hsame : ((writtenPassages entries').filter (fun p => topName p.path p.key == name)).Perm
      (passages.filter (fun p => topName p.path p.key == name)) := by
    refine ((writtenPassages_perm entries').filter _).trans ?_
    rw [filter_entryPassages, hname, ← filter_entryPassages]
    exact hperm.filter _
  have hwritten := writtenPassages_ordered entries' fun p hp =>
    hplaces p (List.mem_of_mem_filter (hsame.mem_iff.mp hp))
  have hnodup : (passages.map Passage.order).Nodup :=
    List.pairwise_map.mpr (hordered.imp Nat.ne_of_lt)
  refine List.Perm.eq_of_pairwise (fun p q hp hq hpq hqp => ?_) hwritten
    ((hordered.filter _).imp Nat.le_of_lt) hsame
  exact List.inj_on_of_nodup_map hnodup (List.mem_of_mem_filter (hsame.mem_iff.mp hp))
    (List.mem_of_mem_filter hq) (Nat.le_antisymm hpq hqp)

/-- With one table replaced, what is written builds for each name what is there. -/
theorem exists_replaced {d : Document} (hwell : d.entries.WellMade) {passages : List Passage}
    (hperm : (entryPassages [] d.entries).Perm passages)
    (hordered : passages.Pairwise fun p q => p.order < q.order)
    (hplaces : ∀ p ∈ passages, p.head.place = some p.order)
    (hrun : (addUnder [] (entryLines [] d.entries) []).bind (applyAll passages) = some d.entries)
    (name : String) {tree : Entries} (htree : LineTree tree) :
    ∃ built, (addUnder [] (entryLines [] (d.put name (.table {} tree)).entries) []).bind
        (applyAll (writtenPassages (d.put name (.table {} tree)).entries)) = some built ∧
      ∀ other, restrict other built = restrict other (d.put name (.table {} tree)).entries := by
  set entries' := (d.put name (.table {} tree)).entries with hentries'
  rw [← runAll_documentSteps] at hrun ⊢
  have hsteps (lines : List Line) (passages : List Passage) :
      ∀ s ∈ documentSteps lines passages, Concerns s.name s.change := fun s => concerns_of_mem
  have hone (other : String) :
      runAll ((documentSteps (entryLines [] entries') (writtenPassages entries')).filter
        (·.name == other)) [] = some (restrict other entries') := by
    rw [filter_documentSteps, filter_entryLines]
    by_cases hother : other = name
    · subst hother
      have hput : restrict other (d.put other (.table {} tree)).entries =
          [(.plain other, .table {} tree)] := restrict_put_self hwell
      have hpassages := (writtenPassages_perm entries').filter
        (fun p => topName p.path p.key == other)
      rw [filter_entryPassages, hput, entryPassages_singleton, itemPassages, if_pos rfl,
        htree.entryPassages_eq_nil, List.append_nil] at hpassages
      have hlines := htree.addLines_entryLines (fun _ _ => rfl : Entries.Apart [] tree)
      have hplace : addUnder [.plain other] (entryLines [] tree) ([(.plain other, .table {} [])]) =
          (addLines (entryLines [] tree) []).map fun sub => [(.plain other, .table {} sub)] :=
        addUnder_table find?_nil find?_nil _
      rw [hlines, List.nil_append] at hplace
      rw [List.perm_singleton.mp hpassages, hput, runAll_documentSteps, entryLines_singleton,
        itemLines_eq_nil (by simp [onLines]), addUnder_nil, Option.bind_some, applyAll_cons,
        Passage.apply_eq, descend_nil]
      change (addUnder [.plain other] (entryLines [] tree)
        [(.plain other, .table {} [])]).bind (applyAll []) = _
      rw [hplace]
      rfl
    · have hput : restrict other entries' = restrict other d.entries := restrict_put_of_ne hother
      have := runAll_restrict (hsteps _ _) hrun other
      rwa [filter_documentSteps, filter_entryLines, restrict_nil, ← hput,
        ← filter_writtenPassages hperm hordered hplaces hput] at this
  obtain ⟨built, hbuilt⟩ : ∃ built, runAll (documentSteps (entryLines [] entries')
      (writtenPassages entries')) [] = some built :=
    runAll_of_restrict (hsteps _ _) fun other => ⟨restrict other entries', hone other⟩
  refine ⟨built, hbuilt, fun other => ?_⟩
  have := runAll_restrict (hsteps _ _) hbuilt other
  rw [restrict_nil, hone] at this
  exact (Option.some.inj this).symm

/-! ## Documents that are read strictly -/

theorem Line.plain_respell (l : Line) : (l.respell .plainKeys).Plain where
  path k hk := by
    obtain ⟨k, -, rfl⟩ := List.mem_map.mp hk
    rfl
  key := rfl

theorem Passage.plain_respell {p : Passage} (h : p.head.origin = .header) :
    (p.respell .plainKeys).Plain where
  path k hk := by
    obtain ⟨k, -, rfl⟩ := List.mem_map.mp hk
    rfl
  key := rfl
  head := h
  lines l hl := by
    obtain ⟨l, -, rfl⟩ := List.mem_map.mp hl
    exact l.plain_respell

theorem heads_of_settled {passages again : List Passage}
    (h : List.Forall₂ Passage.Settled passages again) :
    again.map (·.head) = passages.map (·.head) := by
  induction h with
  | nil => rfl
  | cons hsettled _ ih =>
    obtain ⟨tree, -, rfl⟩ := hsettled
    rw [List.map_cons, List.map_cons, ih]

/-- What statements build strictly, in plain keys, is built again by what is read off it, and the
passages stand in the order of their places. -/
theorem exists_replay {ss : List Statement} {p : Progress}
    (h : Progress.takeAllStrictly {} ss = some p) {entries : Entries}
    (hentries : entries = Entries.respell .plainKeys p.entries) :
    ∃ passages, entries.WellMade ∧ (entryPassages [] entries).Perm passages ∧
      (passages.Pairwise fun p q => p.order < q.order) ∧
      (∀ p ∈ passages, p.head.place = some p.order) ∧
      (addUnder [] (entryLines [] entries) []).bind (applyAll passages) = some entries := by
  have hbuild := takeAllStrictly_eq {} ss
  rw [h, Option.map_some] at hbuild
  obtain ⟨hall, hordered⟩ := outline_places 0 ss
  have hrun := build_respell .plainKeys (outline 0 ss).1 (outline 0 ss).2
  rw [← hbuild, Option.map_some, ← hentries] at hrun
  obtain ⟨passages, hsettled, hwell, hperm, hagain⟩ := document_replay
    (List.forall_mem_map.mpr fun l _ => l.plain_respell)
    (List.forall_mem_map.mpr fun p hp => Passage.plain_respell (hall p hp).1) hrun
  have hheads : passages.map (·.head) = (outline 0 ss).2.map (·.head) := by
    rw [heads_of_settled hsettled, List.map_map]
    rfl
  refine ⟨passages, hwell, hperm, ?_, ?_, hagain⟩
  · have h := List.pairwise_map (f := Passage.head)
      (R := fun a b => a.place.getD 0 < b.place.getD 0).mpr hordered
    rwa [← hheads, List.pairwise_map] at h
  · have h : ∀ head ∈ (outline 0 ss).2.map (·.head), head.place = some (head.place.getD 0) :=
      List.forall_mem_map.mpr fun p hp => (hall p hp).2.1
    rw [← hheads] at h
    exact List.forall_mem_map.mp h

theorem Block.passage_respell (b : Block) :
    (b.respell .plainKeys).passage = b.passage.respell .plainKeys := by
  have hlines := entryLines_respell .plainKeys [] b.entries
  rw [List.map_nil] at hlines
  rw [Block.passage, Block.respell, Passage.respell, Block.passage]
  dsimp only
  rw [hlines, List.map_dropLast, List.getLast?_map]
  cases b.path.getLast? <;> rfl

theorem sortedBlocks_respell (entries : Entries) :
    sortedBlocks (Entries.respell .plainKeys entries) =
      (sortedBlocks entries).map (Block.respell .plainKeys) := by
  have h := blocks_respell .plainKeys (fun _ => rfl) entries 0 []
  rw [List.map_nil] at h
  rw [sortedBlocks, sortedBlocks, h]
  exact (List.map_mergeSort (f := Block.respell .plainKeys) fun a _ b _ => rfl).symm

theorem writtenPassages_respell (entries : Entries) :
    writtenPassages (Entries.respell .plainKeys entries) =
      (writtenPassages entries).map (Passage.respell .plainKeys) := by
  rw [writtenPassages, writtenPassages, sortedBlocks_respell, List.filter_map, List.map_map,
    List.map_map]
  exact List.map_congr_left fun b _ => Block.passage_respell b

/-- The statements that are written say, up to spelling, the lines and passages of the tables. -/
theorem outline_statements {d : Document} {entries : Entries}
    (hentries : entries = Entries.respell .plainKeys d.entries)
    (hsound : ∀ b ∈ sortedBlocks d.entries, b.Sound) :
    (outline 0 d.statements).1.map (Line.respell .bare) =
        (entryLines [] entries).map (Line.respell .bare) ∧
      (outline 0 d.statements).2.map (Passage.respell .bare) =
        (writtenPassages entries).map (Passage.respell .bare) := by
  obtain ⟨hnil, hpassages⟩ := outline_blocksStatements 0 (valueLines [] d.entries == "") hsound
  rw [statements, outline_assign_append, hnil, List.append_nil]
  constructor
  · have h := entryLines_respell .plainKeys [] d.entries
    rw [← hentries, List.map_nil] at h
    rw [← h, List.map_map]
    exact List.map_congr_left fun l _ => l.respell_bare.symm
  · rw [hpassages, hentries, writtenPassages_respell]
    change (writtenPassages d.entries).map (Passage.respell .bare) = _
    rw [List.map_map]
    exact List.map_congr_left fun p _ => p.respell_bare.symm

theorem restrict_respell (r : Respelling) (name : String) (entries : Entries) :
    restrict name (Entries.respell r entries) = Entries.respell r (restrict name entries) := by
  rw [restrict, restrict, Entries.respell, List.filter_map]
  congr 2
  funext e
  simp

theorem onLines_respell (r : Respelling) (item : Item) :
    (item.respell r).onLines = item.onLines := by
  cases item <;> simp [onLines]

theorem Block.sound_of_respell {b : Block} (h : (b.respell .plainKeys).Sound) : b.Sound where
  header := h.header
  lineFree hheader e he := by
    have := h.lineFree hheader _ (List.mem_map_of_mem he)
    rwa [← onLines_respell .plainKeys e.2]
  path hpath := h.path (by rw [Block.respell, hpath, List.map_nil])

/-- A document that was read strictly and then had a table put in the place of a name. -/
structure Replaced (ss : List Statement) (p : Progress) (name : String) (tree : Entries)
    (d : Document) : Prop where
  built : Progress.takeAllStrictly {} ss = some p
  lineTree : LineTree (Entries.respell .plainKeys tree)
  entries_eq : d.entries = (({ entries := p.entries } : Document).put name (.table {} tree)).entries

namespace Replaced

variable {ss : List Statement} {p : Progress} {name : String} {tree : Entries} {d : Document}

theorem entries_respell (h : Replaced ss p name tree d) :
    Entries.respell .plainKeys d.entries =
      (({ entries := Entries.respell .plainKeys p.entries } : Document).put name
        (.table {} (Entries.respell .plainKeys tree))).entries := by
  rw [h.entries_eq, put_respell, respell_table]
  rfl

/-- All tables can be written. -/
theorem sound (h : Replaced ss p name tree d) : ∀ b ∈ sortedBlocks d.entries, b.Sound := by
  obtain ⟨_, hwell, -⟩ := exists_replay h.built rfl
  have hput : (Entries.respell .plainKeys d.entries).WellMade := by
    rw [h.entries_respell]
    exact put_wellMade hwell (by simpa using h.lineTree.wellMade)
  intro b hb
  have hmem := List.mem_map_of_mem (f := Block.respell .plainKeys) hb
  rw [← sortedBlocks_respell] at hmem
  exact Block.sound_of_respell
    (blocks_sound _ hput.items _ ((List.mergeSort_perm ..).mem_iff.mp hmem))

/-- Statements that say what is written build strictly, for every name what it had or was given. -/
theorem takeAllStrictly (h : Replaced ss p name tree d) {ss' : List Statement}
    (hss' : ss'.map (Statement.respell .bare) = d.statements.map (Statement.respell .bare)) :
    ∃ p', Progress.takeAllStrictly {} ss' = some p' ∧
      (∀ other, other ≠ name → restrict other (Entries.respell .bare p'.entries) =
        restrict other (Entries.respell .bare p.entries)) ∧
      restrict name (Entries.respell .bare p'.entries) =
        [(.plain name, .table {} (Entries.respell .bare tree))] := by
  obtain ⟨passages, hwell, hperm, hordered, hplaces, hrun⟩ := exists_replay h.built rfl
  obtain ⟨built, hbuilt, hrestrict⟩ := exists_replaced
    (d := { entries := Entries.respell .plainKeys p.entries }) hwell hperm hordered hplaces hrun
    name h.lineTree
  rw [← h.entries_respell] at hbuilt hrestrict
  obtain ⟨hlines, hpassages⟩ := outline_statements rfl h.sound
  have hspelled := outline_respell 0 d.statements
  rw [← hss', (outline_respell 0 ss').1, (outline_respell 0 ss').2, hlines, hpassages] at hspelled
  have hbare := build_respell .bare (outline 0 ss').1 (outline 0 ss').2
  rw [hspelled.1, hspelled.2, build_respell, hbuilt] at hbare
  have htake := takeAllStrictly_eq {} ss'
  rw [← htake, Option.map_map] at hbare
  obtain ⟨p', hp', hentries⟩ := Option.map_eq_some_iff.mp hbare.symm
  have hsame : Entries.respell .bare p'.entries = Entries.respell .bare built := hentries
  refine ⟨p', hp', fun other hother => ?_, ?_⟩
  · rw [hsame, restrict_respell, hrestrict, h.entries_respell, restrict_put_of_ne hother,
      ← restrict_respell, Entries.respell_bare]
  · rw [hsame, restrict_respell, hrestrict, h.entries_respell, restrict_put_self hwell,
      respell_singleton, respell_table, Entries.respell_bare]
    rfl

end Replaced

end VideoSync.Toml
