import Mathlib.Data.List.Nodup
import VideoSync.Proofs.Toml.Lexing

/-
  Tables keep how they are spelled. The keys, heads and values of tables that are built from spelled
  statements are those of the statements, so they can be written again: all that is written of such
  tables is spelled, and stays so when a new table takes the place of a name.
-/

namespace VideoSync.Toml

open Item Entries

/-! ## Spelled tables -/

/-- What is known of the text around a header is of the kind that belongs there. -/
structure Head.Spelled (h : Head) : Prop where
  before : ∀ text, h.before = some text → Leading text.toList
  after : ∀ text, h.after = some text → LineEnd text.toList

/-- A head that nothing was read for. -/
theorem Head.spelled_fresh (origin : Origin) : Head.Spelled { origin } := ⟨by simp, by simp⟩

namespace Item

mutual

/-- An item and all below it is spelled, under a key that stands where the item needs it. -/
def Spelled (key : Key) : Item → Prop
  | .value before written after v => Line.Spelled ⟨[], key, before, written, after, v⟩
  | .table head entries => key.Within ∧ head.Spelled ∧ EntriesSpelled entries
  | .tables elements => key.Within ∧ ElementsSpelled elements

/-- The entries of a table are spelled, each under a name of its own. -/
def EntriesSpelled : List (Key × Item) → Prop
  | [] => True
  | (key, item) :: rest =>
    ((∀ e ∈ rest, e.1.name ≠ key.name) ∧ item.Spelled key) ∧ EntriesSpelled rest

/-- The tables of an array are spelled. -/
def ElementsSpelled : List (Head × List (Key × Item)) → Prop
  | [] => True
  | (head, entries) :: rest => (head.Spelled ∧ EntriesSpelled entries) ∧ ElementsSpelled rest

end

end Item

/-- Entries that are spelled here and below, each under a name of its own. -/
structure Entries.Spelled (entries : Entries) : Prop where
  nodup : (entries.map (·.1.name)).Nodup
  items : ∀ e ∈ entries, e.2.Spelled e.1

variable {entries entries' : Entries} {key : Key} {item : Item}

namespace Item

theorem entriesSpelled_iff : EntriesSpelled entries ↔ entries.Spelled := by
  induction entries with
  | nil => exact ⟨fun _ => ⟨List.nodup_nil, by simp⟩, fun _ => trivial⟩
  | cons e rest ih =>
    rw [EntriesSpelled, ih]
    constructor
    · rintro ⟨⟨hfresh, hitem⟩, hnodup, hitems⟩
      refine ⟨List.nodup_cons.mpr ⟨fun hmem => ?_, hnodup⟩,
        List.forall_mem_cons.mpr ⟨hitem, hitems⟩⟩
      obtain ⟨other, hother, hname⟩ := List.mem_map.mp hmem
      exact hfresh other hother hname
    · rintro ⟨hnodup, hitems⟩
      obtain ⟨hfresh, hnodup⟩ := List.nodup_cons.mp hnodup
      obtain ⟨hitem, hitems⟩ := List.forall_mem_cons.mp hitems
      exact ⟨⟨fun other hother hname => hfresh (List.mem_map.mpr ⟨other, hother, hname⟩), hitem⟩,
        hnodup, hitems⟩

@[simp] theorem spelled_table {head : Head} :
    (Item.table head entries).Spelled key ↔ key.Within ∧ head.Spelled ∧ entries.Spelled := by
  rw [Spelled, entriesSpelled_iff]

@[simp] theorem spelled_tables {elements : List (Head × Entries)} :
    (Item.tables elements).Spelled key ↔
      key.Within ∧ ∀ e ∈ elements, e.1.Spelled ∧ Entries.Spelled e.2 := by
  rw [Spelled]
  refine and_congr_right fun _ => ?_
  induction elements with
  | nil => simp [ElementsSpelled]
  | cons e rest ih => rw [ElementsSpelled, ih, entriesSpelled_iff, List.forall_mem_cons]

end Item

/-- Whatever stands under a key, the key itself is spelled. -/
theorem Item.Spelled.spelled_key {item : Item} {key : Key} (h : item.Spelled key) :
    key.Spelled := by
  cases item with
  | value => exact Line.Spelled.key h
  | table => exact (spelled_table.mp h).1.spelled
  | tables => exact (spelled_tables.mp h).1.spelled

theorem Line.Spelled.item_spelled {l : Line} (h : l.Spelled) : l.item.Spelled l.key :=
  ⟨by simp, h.key, h.leading, h.before, h.written, h.after⟩

namespace Entries.Spelled

theorem nil : Spelled [] := ⟨List.nodup_nil, by simp⟩

/-- A new entry at the end. -/
theorem append_singleton (h : entries.Spelled) (hfresh : find? entries key.name = none)
    (hitem : item.Spelled key) : Spelled (entries ++ [(key, item)]) where
  nodup := by
    rw [List.map_append, List.map_singleton, List.nodup_append]
    refine ⟨h.nodup, by simp, fun name hname other hother heq => ?_⟩
    obtain ⟨e, he, rfl⟩ := List.mem_map.mp hname
    exact find?_eq_none.mp hfresh e he (heq.trans (List.mem_singleton.mp hother))
  items := by
    simpa [or_imp, forall_and] using ⟨fun a b hab => h.items (a, b) hab, hitem⟩

theorem sublist (h : entries.Spelled) (hsub : entries'.Sublist entries) : entries'.Spelled :=
  ⟨h.nodup.sublist (hsub.map _), fun e he => h.items e (hsub.subset he)⟩

theorem erase (h : entries.Spelled) (name : String) : (Entries.erase entries name).Spelled :=
  h.sublist (List.filter_sublist ..)

/-- No other entry has the name of one. -/
theorem find?_around {pre post : Entries} (h : Spelled (pre ++ (key, item) :: post)) :
    Entries.find? pre key.name = none ∧ Entries.find? post key.name = none := by
  have hnodup := h.nodup
  rw [List.map_append, List.map_cons] at hnodup
  obtain ⟨-, hrest, hapart⟩ := List.nodup_append.mp hnodup
  constructor
  · exact find?_eq_none.mpr fun e he heq =>
      hapart _ (List.mem_map_of_mem he) _ List.mem_cons_self heq
  · exact find?_eq_none.mpr fun e he heq =>
      (List.nodup_cons.mp hrest).1 (heq ▸ List.mem_map_of_mem he)

/-- Another item in the place of one that is found. -/
theorem set (h : entries.Spelled) {name : String} {item' : Item}
    (hfind : find? entries name = some item)
    (hitem : ∀ e ∈ entries, e.1.name = name → item.Spelled e.1 → item'.Spelled e.1) :
    (Entries.set entries name item').Spelled := by
  obtain ⟨pre, key, post, rfl, rfl, hpre⟩ := exists_of_find? hfind
  have hnodup := h.nodup
  rw [List.map_append, List.map_cons] at hnodup
  rw [set_split hpre h.find?_around.2]
  refine ⟨by rwa [List.map_append, List.map_cons], fun e he => ?_⟩
  rcases List.mem_append.mp he with he | he
  · exact h.items e (by simp [he])
  · rcases List.mem_cons.mp he with rfl | he
    · exact hitem (key, item) (by simp) rfl (h.items (key, item) (by simp))
    · exact h.items e (by simp [he])

theorem find? (h : entries.Spelled) {name : String}
    (hfind : Entries.find? entries name = some item) :
    ∃ key, item.Spelled key := by
  obtain ⟨pre, key, post, rfl, -, -⟩ := exists_of_find? hfind
  exact ⟨key, h.items (key, item) (by simp)⟩

variable {f : Entries → Option Entries}

theorem inLast (hf : ∀ {entries entries'}, entries.Spelled → f entries = some entries' →
      entries'.Spelled) {elements elements' : List (Head × Entries)}
    (h : ∀ e ∈ elements, e.1.Spelled ∧ Entries.Spelled e.2)
    (hlast : Entries.inLast f elements = some elements') :
    ∀ e ∈ elements', e.1.Spelled ∧ Entries.Spelled e.2 := by
  rcases List.eq_nil_or_concat elements with rfl | ⟨before, ⟨head, entries⟩, rfl⟩
  · simp at hlast
  · rw [List.concat_eq_append] at h hlast
    rw [inLast_concat] at hlast
    obtain ⟨entries', hentries', rfl⟩ := Option.map_eq_some_iff.mp hlast
    obtain ⟨hhead, hspelled⟩ := h (head, entries) (by simp)
    intro e he
    rcases List.mem_append.mp he with he | he
    · exact h e (by simp [he])
    · rw [List.mem_singleton.mp he]
      exact ⟨hhead, hf hspelled hentries'⟩

theorem set_table (h : entries.Spelled) {name : String} {head : Head} {sub sub' : Entries}
    (hfind : Entries.find? entries name = some (.table head sub)) (hsub : sub'.Spelled) :
    (Entries.set entries name (.table head sub')).Spelled := by
  refine h.set hfind fun e _ _ hold => ?_
  rw [spelled_table] at hold ⊢
  exact ⟨hold.1, hold.2.1, hsub⟩

theorem set_tables (h : entries.Spelled) {name : String}
    {elements elements' : List (Head × Entries)}
    (hfind : Entries.find? entries name = some (.tables elements))
    (helements : ∀ e ∈ elements', e.1.Spelled ∧ Entries.Spelled e.2) :
    (Entries.set entries name (.tables elements')).Spelled := by
  refine h.set hfind fun e _ _ hold => ?_
  rw [spelled_tables] at hold ⊢
  exact ⟨hold.1, helements⟩

theorem descend (hf : ∀ {entries entries'}, entries.Spelled → f entries = some entries' →
      entries'.Spelled) {path : List Key} (hpath : ∀ k ∈ path, k.Within) (h : entries.Spelled)
    (hdescend : Entries.descend f path entries = some entries') : entries'.Spelled := by
  induction path generalizing entries entries' with
  | nil =>
    rw [descend_nil] at hdescend
    exact hf h hdescend
  | cons key rest ih =>
    obtain ⟨hkey, hrest⟩ := List.forall_mem_cons.mp hpath
    rw [Entries.descend] at hdescend
    split at hdescend
    · next hfind =>
      obtain ⟨sub, hsub, rfl⟩ := Option.map_eq_some_iff.mp hdescend
      exact h.append_singleton hfind
        (spelled_table.mpr ⟨hkey, Head.spelled_fresh _, ih hrest .nil hsub⟩)
    · contradiction
    · next head sub hfind =>
      obtain ⟨sub', hsub', rfl⟩ := Option.map_eq_some_iff.mp hdescend
      obtain ⟨key', hold⟩ := h.find? hfind
      exact h.set_table hfind (ih hrest (spelled_table.mp hold).2.2 hsub')
    · next elements hfind =>
      obtain ⟨elements', helements', rfl⟩ := Option.map_eq_some_iff.mp hdescend
      obtain ⟨key', hold⟩ := h.find? hfind
      exact h.set_tables hfind (inLast (ih hrest) (spelled_tables.mp hold).2 helements')

theorem addDotted (hitem : item.Spelled key) {origin : Option Origin} {path : List Key}
    (hpath : ∀ k ∈ path, k.Within) (h : entries.Spelled)
    (hadd : Entries.addDotted key item origin path entries = some entries') :
    entries'.Spelled := by
  induction path generalizing origin entries entries' with
  | nil =>
    rw [Entries.addDotted] at hadd
    split at hadd
    · rw [Entries.add] at hadd
      split at hadd
      · contradiction
      · next hfresh =>
        cases hadd
        exact h.append_singleton (by simpa using hfresh) hitem
    · contradiction
  | cons first rest ih =>
    obtain ⟨hfirst, hrest⟩ := List.forall_mem_cons.mp hpath
    rw [Entries.addDotted] at hadd
    split at hadd
    · next hfind =>
      obtain ⟨sub, hsub, rfl⟩ := Option.map_eq_some_iff.mp hadd
      exact h.append_singleton hfind
        (spelled_table.mpr ⟨hfirst, Head.spelled_fresh _, ih hrest .nil hsub⟩)
    · contradiction
    · next head sub hfind =>
      split at hadd
      · contradiction
      · obtain ⟨sub', hsub', rfl⟩ := Option.map_eq_some_iff.mp hadd
        obtain ⟨key', hold⟩ := h.find? hfind
        exact h.set_table hfind (ih hrest (spelled_table.mp hold).2.2 hsub')
    · next elements hfind =>
      obtain ⟨elements', helements', rfl⟩ := Option.map_eq_some_iff.mp hadd
      obtain ⟨key', hold⟩ := h.find? hfind
      exact h.set_tables hfind (inLast (ih hrest) (spelled_tables.mp hold).2 helements')

theorem addStrictly {l : Line} (hl : l.Spelled) (h : entries.Spelled)
    (hadd : Entries.addStrictly l.key l.item l.path entries = some entries') :
    entries'.Spelled := by
  rw [Entries.addStrictly] at hadd
  split at hadd
  · exact addDotted hl.item_spelled hl.path h hadd
  · contradiction

theorem openTable {head : Head} (hkey : key.Within) (hhead : head.Spelled) (h : entries.Spelled)
    (hopen : Entries.openTable key head entries = some entries') : entries'.Spelled := by
  cases hfind : Entries.find? entries key.name with
  | none =>
    rw [Entries.openTable, hfind] at hopen
    cases hopen
    exact h.append_singleton hfind (spelled_table.mpr ⟨hkey, hhead, .nil⟩)
  | some item =>
    cases item with
    | value => simp [Entries.openTable, hfind] at hopen
    | tables => simp [Entries.openTable, hfind] at hopen
    | table old sub =>
      rw [openTable_of_table hfind] at hopen
      split at hopen
      · cases hopen
        obtain ⟨key', hold⟩ := h.find? hfind
        exact (h.erase _).append_singleton find?_erase_self
          (spelled_table.mpr ⟨hkey, hhead, (spelled_table.mp hold).2.2⟩)
      · contradiction

theorem openElement {head : Head} (hkey : key.Within) (hhead : head.Spelled)
    (h : entries.Spelled) (hopen : Entries.openElement key head entries = some entries') :
    entries'.Spelled := by
  rw [Entries.openElement] at hopen
  split at hopen
  · next hfind =>
    cases hopen
    refine h.append_singleton hfind (spelled_tables.mpr ⟨hkey, ?_⟩)
    simpa using ⟨hhead, nil⟩
  · next elements hfind =>
    cases hopen
    obtain ⟨key', hold⟩ := h.find? hfind
    refine h.set_tables hfind fun e he => ?_
    rcases List.mem_append.mp he with he | he
    · exact (spelled_tables.mp hold).2 e he
    · rw [List.mem_singleton.mp he]
      exact ⟨hhead, nil⟩
  · contradiction

end Entries.Spelled

/-! ## Tables that are read -/

/-- The tables read so far and the path of the open header. -/
structure Progress.Spelled (p : Progress) : Prop where
  entries : p.entries.Spelled
  path : ∀ k ∈ p.path, k.Within

theorem Progress.Spelled.takeStrictly {p p' : Progress} {s : Statement} (h : p.Spelled)
    (hs : s.Spelled) (htake : p.takeStrictly s = some p') : p'.Spelled := by
  cases s with
  | assign l =>
    obtain ⟨entries, hentries, rfl⟩ := Option.map_eq_some_iff.mp htake
    exact ⟨h.entries.descend (Spelled.addStrictly hs) h.path hentries, h.path⟩
  | header element path key before after =>
    obtain ⟨hkeys, hbefore, hafter⟩ := hs
    obtain ⟨entries, hentries, rfl⟩ := Option.map_eq_some_iff.mp htake
    have hkey := hkeys key (by simp)
    have hhead : Head.Spelled
        { place := some (p.headers + 1), before := some before, after := some after } :=
      ⟨by simpa using hbefore, by simpa using hafter⟩
    refine ⟨h.entries.descend (fun {entries entries'} hspelled hopen => ?_)
      (fun k hk => hkeys k (by simp [hk])) hentries, hkeys⟩
    split at hopen
    · exact hspelled.openElement hkey hhead hopen
    · exact hspelled.openTable hkey hhead hopen

/-- Spelled statements build spelled tables. -/
theorem Progress.Spelled.takeAllStrictly {p p' : Progress} {ss : List Statement} (h : p.Spelled)
    (hss : ∀ s ∈ ss, s.Spelled) (htake : p.takeAllStrictly ss = some p') : p'.Spelled := by
  induction ss generalizing p with
  | nil =>
    cases htake
    exact h
  | cons s rest ih =>
    obtain ⟨hs, hrest⟩ := List.forall_mem_cons.mp hss
    rw [Progress.takeAllStrictly_cons] at htake
    obtain ⟨middle, hmiddle, hmore⟩ := Option.bind_eq_some_iff.mp htake
    exact ih (h.takeStrictly hs hmiddle) hrest hmore

/-! ## Tables that are written -/

theorem within_concat {path : List Key} (hpath : ∀ k ∈ path, k.Within) (hkey : key.Within) :
    ∀ k ∈ path ++ [key], k.Within := fun k hk => by
  rcases List.mem_append.mp hk with hk | hk
  · exact hpath k hk
  · rw [List.mem_singleton.mp hk]
    exact hkey

mutual

theorem EntriesSpelled.lines : ∀ (entries : List (Key × Item)) {path : List Key},
    (∀ k ∈ path, k.Within) → EntriesSpelled entries → ∀ l ∈ entryLines path entries, l.Spelled
  | [], _, _, _, l, hl => by simp at hl
  | (key, item) :: rest, path, hpath, h, l, hl => by
    obtain ⟨⟨-, hitem⟩, hrest⟩ := h
    rcases List.mem_append.mp hl with hl | hl
    · exact Item.Spelled.lines item hpath hitem l hl
    · exact EntriesSpelled.lines rest hpath hrest l hl

theorem Item.Spelled.lines : ∀ (item : Item) {path : List Key} {key : Key},
    (∀ k ∈ path, k.Within) → item.Spelled key → ∀ l ∈ itemLines path key item, l.Spelled
  | .value .., path, key, hpath, h, l, hl => by
    obtain rfl := List.mem_singleton.mp hl
    exact ⟨hpath, h.key, h.leading, h.before, h.written, h.after⟩
  | .table head entries, path, key, hpath, h, l, hl => by
    obtain ⟨hkey, -, hentries⟩ := h
    rw [itemLines] at hl
    split at hl
    · exact EntriesSpelled.lines entries (within_concat hpath hkey) hentries l hl
    · simp at hl
  | .tables _, path, key, _, _, l, hl => by simp [itemLines] at hl

end

namespace Document

/-- A table that is ready to be written is spelled, and so are the keys of its header. -/
structure Block.Spelled (b : Block) : Prop where
  path : ∀ k ∈ b.path, k.Within
  head : b.head.Spelled
  entries : EntriesSpelled b.entries

mutual

theorem blocks_spelled : ∀ (entries : List (Key × Item)) {last : Nat} {path : List Key},
    (∀ k ∈ path, k.Within) → EntriesSpelled entries →
      ∀ b ∈ (blocks last path entries).2, b.Spelled
  | [], _, _, _, _, b, hb => by simp [blocks] at hb
  | (key, item) :: rest, last, path, hpath, h, b, hb => by
    obtain ⟨⟨-, hitem⟩, hrest⟩ := h
    rcases List.mem_append.mp hb with hb | hb
    · exact itemBlocks_spelled item hpath hitem b hb
    · exact blocks_spelled rest hpath hrest b hb

theorem itemBlocks_spelled : ∀ (item : Item) {last : Nat} {path : List Key} {key : Key},
    (∀ k ∈ path, k.Within) → item.Spelled key →
      ∀ b ∈ (itemBlocks last (path ++ [key]) item).2, b.Spelled
  | .value .., last, path, key, _, _, b, hb => by simp [itemBlocks] at hb
  | .table head entries, last, path, key, hpath, h, b, hb => by
    obtain ⟨hkey, hhead, hentries⟩ := h
    have hkeys := within_concat hpath hkey
    have hbelow : b ∈ (blocks (head.place.getD last) (path ++ [key]) entries).2 → b.Spelled :=
      blocks_spelled entries hkeys hentries b
    rw [itemBlocks] at hb
    dsimp only at hb
    split at hb
    · exact hbelow hb
    · rcases List.mem_cons.mp hb with rfl | hb
      · exact ⟨hkeys, hhead, hentries⟩
      · exact hbelow hb
  | .tables elements, last, path, key, hpath, h, b, hb =>
    elementBlocks_spelled elements (within_concat hpath h.1) h.2 b hb

theorem elementBlocks_spelled : ∀ (elements : List (Head × List (Key × Item))) {last : Nat}
    {path : List Key}, (∀ k ∈ path, k.Within) → ElementsSpelled elements →
      ∀ b ∈ (elementBlocks last path elements).2, b.Spelled
  | [], _, _, _, _, b, hb => by simp [elementBlocks] at hb
  | (head, entries) :: rest, last, path, hpath, h, b, hb => by
    obtain ⟨⟨hhead, hentries⟩, hrest⟩ := h
    rw [elementBlocks] at hb
    rcases List.mem_append.mp hb with hb | hb
    · rcases List.mem_cons.mp hb with rfl | hb
      · exact ⟨hpath, hhead, hentries⟩
      · exact blocks_spelled entries hpath hentries b hb
    · exact elementBlocks_spelled rest hpath hrest b hb

end

theorem leading_newline : Leading "\n".toList := ⟨fun _ => .newline .nil, by simp⟩

theorem Block.Spelled.statements {b : Block} (h : b.Spelled) (hsound : b.Sound) (first : Bool) :
    ∀ s ∈ b.statements first, s.Spelled := by
  have hpath : b.passage.path ++ [b.passage.key] = b.path := by
    have := List.dropLast_append_getLast hsound.path
    rw [passage, List.getLast?_eq_some_getLast hsound.path, Option.getD_some, this]
  rw [Block.statements]
  refine List.forall_mem_cons.mpr ⟨⟨?_, ?_, ?_⟩, List.forall_mem_map.mpr fun l hl => ?_⟩
  · rw [hpath]
    exact h.path
  · cases hbefore : b.head.before with
    | some text => exact h.head.before text hbefore
    | none => cases first <;> [exact leading_newline; exact ⟨fun _ => .nil, by simp⟩]
  · cases hafter : b.head.after with
    | some text => exact h.head.after text hafter
    | none => exact .of_blanks blanks_empty
  · exact EntriesSpelled.lines b.entries (by simp) h.entries l hl

theorem blocksStatements_spelled {bs : List Block} (h : ∀ b ∈ bs, b.Spelled ∧ b.Sound)
    (first : Bool) : ∀ s ∈ blocksStatements first bs, s.Spelled := by
  induction bs generalizing first with
  | nil => simp [blocksStatements]
  | cons b rest ih =>
    obtain ⟨⟨hb, hb'⟩, hrest⟩ := List.forall_mem_cons.mp h
    rw [blocksStatements]
    split
    · intro s hs
      rcases List.mem_append.mp hs with hs | hs
      · exact hb.statements hb' first s hs
      · exact ih hrest false s hs
    · exact ih hrest first

/-- All that is written of spelled tables is spelled. -/
theorem statements_spelled {d : Document} (h : d.entries.Spelled)
    (hsound : ∀ b ∈ sortedBlocks d.entries, b.Sound) : ∀ s ∈ d.statements, s.Spelled := by
  have hentries := entriesSpelled_iff.mpr h
  intro s hs
  rcases List.mem_append.mp hs with hs | hs
  · obtain ⟨l, hl, rfl⟩ := List.mem_map.mp hs
    exact EntriesSpelled.lines d.entries (by simp) hentries l hl
  · refine blocksStatements_spelled (fun b hb => ⟨?_, hsound b hb⟩) _ s hs
    exact blocks_spelled d.entries (by simp) hentries b ((List.mergeSort_perm ..).mem_iff.mp hb)

/-! ## A new table in the place of a name -/

theorem spells_bare {name : String} (hne : name.toList ≠ [])
    (hbare : ∀ c ∈ name.toList, isBareChar c = true) : Spells name name.toList where
  noReturn hmem := absurd (hbare _ hmem) (by decide)
  first := by
    obtain ⟨c, more, hcons⟩ := List.exists_cons_of_ne_nil hne
    exact ⟨c, more, hcons, by simp [startsKey, hbare c (by simp [hcons])]⟩
  read {rest} hrest := by
    obtain ⟨c, more, hcons⟩ := List.exists_cons_of_ne_nil hne
    have hc := hbare c (by simp [hcons])
    have htake := takeWhile_append hbare hrest
    have hdrop := dropWhile_append hbare hrest
    rw [hcons, List.cons_append] at htake hdrop ⊢
    rw [name?]
    · rw [htake, hdrop, if_neg (by simp), ← hcons, String.ofList_toList]
    · rintro tail heq
      cases heq
      exact absurd hc (by decide)
    · rintro tail heq
      cases heq
      exact absurd hc (by decide)

/-- A name of bare characters in its plainest form. -/
theorem within_plain {name : String} (hne : name.toList ≠ [])
    (hbare : name.toList.all isBareChar = true) : (Key.plain name).Within :=
  ⟨⟨spells_bare hne (List.all_eq_true.mp hbare), blanks_empty, blanks_empty, blanks_empty⟩,
    blanks_empty⟩

/-- A key whose entry is a plain value may have comments before it; then no header can be made of
it. -/
theorem put_spelled {d : Document} (h : d.entries.Spelled) {name : String}
    (hname : (Key.plain name).Within)
    (hbefore : ∀ e ∈ d.entries, e.1.name = name → Blanks e.1.before.toList) {tree : Entries}
    (htree : tree.Spelled) : (d.put name (.table {} tree)).entries.Spelled := by
  have hitem {key : Key} (hkey : key.Within) : (Item.table {} tree).Spelled key :=
    spelled_table.mpr ⟨hkey, Head.spelled_fresh .header, htree⟩
  rw [put]
  dsimp only
  cases hfind : find? d.entries name with
  | none =>
    have hfresh : find? d.entries (Key.plain name).name = none := hfind
    exact h.append_singleton hfresh (hitem hname)
  | some item => exact h.set hfind fun e he hkey hold => hitem ⟨hold.spelled_key, hbefore e he hkey⟩

end Document

end VideoSync.Toml
