import Mathlib.Data.List.Forall2
import VideoSync.Proofs.Toml.Contents

/-
  The passages that are read off the tables of a document, in the order of their headers, build the
  same tables again. One passage adds one passage to those that are read off and changes no other,
  and none of the lines above it: this is `Grows`, first where the header's table is opened, then up
  the path that leads there. `applyAll_replay` is the run.
-/

namespace VideoSync.Toml

open Item Entries

variable {path : List Key} {key : Key} {item : Item} {entries entries' sub pre post : Entries}
  {head : Head}

/-! ## A passage as one change at the end of its path -/

/-- Opens the table of the header where its path ends and adds the lines. -/
def Passage.place (p : Passage) (entries : Entries) : Option Entries :=
  (p.opening entries).bind (addUnder [p.key] p.lines)

theorem descend_addUnder (f : Entries → Option Entries) (path more : List Key) (lines : List Line)
    (entries : Entries) :
    (descend f path entries).bind (addUnder (path ++ more) lines) =
      descend (fun entries => (f entries).bind (addUnder more lines)) path entries := by
  induction lines generalizing f with
  | nil =>
    have h (more : List Key) : addUnder more [] = some := rfl
    simp [h]
  | cons l lines ih =>
    have h (more : List Key) : addUnder more (l :: lines) =
        fun entries => (descend l.add more entries).bind (addUnder more lines) :=
      funext fun _ => addUnder_cons ..
    simp only [h]
    rw [descend_append, ← Option.bind_assoc, descend_bind, ih]
    simp only [Option.bind_assoc]

theorem Passage.apply_eq (p : Passage) : p.apply = descend p.place p.path :=
  funext fun _ => descend_addUnder ..

theorem addUnder_table (hpre : find? pre key.name = none) (hpost : find? post key.name = none)
    (lines : List Line) :
    addUnder [key] lines (pre ++ (key, .table head sub) :: post) =
      (addLines lines sub).map fun sub => pre ++ (key, .table head sub) :: post := by
  induction lines generalizing sub with
  | nil => rfl
  | cons l lines ih =>
    rw [addUnder_cons, addLines_cons, descend, find?_split hpre]
    simp only [descend_nil, set_split hpre hpost]
    cases l.add sub with
    | none => rfl
    | some sub => exact ih

theorem addUnder_tables (hpre : find? pre key.name = none) (hpost : find? post key.name = none)
    (before : List (Head × Entries)) (lines : List Line) :
    addUnder [key] lines (pre ++ (key, .tables (before ++ [(head, sub)])) :: post) =
      (addLines lines sub).map fun sub =>
        pre ++ (key, .tables (before ++ [(head, sub)])) :: post := by
  induction lines generalizing sub with
  | nil => rfl
  | cons l lines ih =>
    rw [addUnder_cons, addLines_cons, descend, find?_split hpre]
    simp only [descend_nil, inLast_concat, Option.map_map, set_split hpre hpost,
      Function.comp_def]
    cases l.add sub with
    | none => rfl
    | some sub => exact ih

/-! ## What a passage adds -/

/-- Entries that have the same lines as before, and all passages of before with some more. -/
structure Grows (path : List Key) (entries entries' : Entries) (added : List Passage) : Prop where
  lines : ∀ path, entryLines path entries' = entryLines path entries
  lineFree : entries.LineFree → entries'.LineFree
  passages : (entryPassages path entries').Perm (entryPassages path entries ++ added)
  wellMade : entries'.WellMade

namespace Entries

theorem itemLines_eq_nil (h : item.onLines = false) (path : List Key) (key : Key) :
    itemLines path key item = [] := by
  cases item with
  | value => simp [onLines] at h
  | table head sub => rw [itemLines, if_neg (by simpa [onLines] using h)]
  | tables => rfl

theorem LineFree.entryLines_eq_nil (h : entries.LineFree) (path : List Key) :
    entryLines path entries = [] := by
  induction entries with
  | nil => rfl
  | cons e rest ih =>
    obtain ⟨he, hrest⟩ := List.forall_mem_cons.mp h
    rw [entryLines, ih hrest, itemLines_eq_nil he, List.append_nil]

theorem lineFree_append {first second : Entries} :
    LineFree (first ++ second) ↔ first.LineFree ∧ second.LineFree := List.forall_mem_append

theorem lineFree_cons {rest : Entries} :
    LineFree ((key, item) :: rest) ↔ item.onLines = false ∧ rest.LineFree := List.forall_mem_cons

theorem WellMade.append_tree (h : entries.WellMade) {tree : Entries} (htree : LineTree tree)
    (hapart : entries.Apart tree) : WellMade (entries ++ tree) := by
  induction htree with
  | nil => rwa [List.append_nil]
  | value _ hfresh hkey ih =>
    obtain ⟨hapart, hname⟩ := apart_concat.mp hapart
    rw [← List.append_assoc]
    exact (ih hapart).append_singleton (by rw [find?_append, hname, hfresh, Option.or_none]) hkey
      (by simp)
  | dotted _ hfresh hkey hsub _ ih _ =>
    obtain ⟨hapart, hname⟩ := apart_concat.mp hapart
    rw [← List.append_assoc]
    exact (ih hapart).append_singleton (by rw [find?_append, hname, hfresh, Option.or_none]) hkey
      (by simpa using hsub.wellMade)

end Entries

/-- What is added to the middle of a list may stand at its end. -/
theorem perm_append_added {α : Type} {here here' added : List α} (h : here'.Perm (here ++ added))
    (before after : List α) :
    (before ++ (here' ++ after)).Perm (before ++ (here ++ after) ++ added) := by
  refine ((h.append_right after).append_left before).trans ?_
  simp only [List.append_assoc]
  exact ((List.perm_append_comm.append_left here)).append_left before

namespace Grows

variable {added : List Passage}

/-- What is added below the table of an entry. -/
theorem in_table (h : WellMade (pre ++ (key, .table head sub) :: post)) {sub' : Entries}
    (hsub : Grows (path ++ [key]) sub sub' added) :
    Grows path (pre ++ (key, .table head sub) :: post) (pre ++ (key, .table head sub') :: post)
      added where
  lines path := by simp only [entryLines_append, entryLines, itemLines, hsub.lines]
  lineFree hfree := by simpa [lineFree_append, lineFree_cons, onLines] using hfree
  passages := by
    simp only [entryPassages_append, entryPassages, itemPassages, hsub.lines]
    refine perm_append_added ?_ ..
    rw [List.append_assoc]
    exact hsub.passages.append_left _
  wellMade := h.replace (by
    have hold := h.items (key, .table head sub) (by simp)
    rw [wellMade_table] at hold ⊢
    exact ⟨fun horigin => hsub.lineFree (hold.1 horigin), hsub.wellMade⟩)

/-- What is added below the last table of an array. -/
theorem in_tables {before : List (Head × Entries)}
    (h : WellMade (pre ++ (key, .tables (before ++ [(head, sub)])) :: post)) {sub' : Entries}
    (hsub : Grows (path ++ [key]) sub sub' added) :
    Grows path (pre ++ (key, .tables (before ++ [(head, sub)])) :: post)
      (pre ++ (key, .tables (before ++ [(head, sub')])) :: post) added where
  lines path := by simp only [entryLines_append, entryLines, itemLines]
  lineFree hfree := by simpa [lineFree_append, lineFree_cons, onLines] using hfree
  passages := by
    simp only [entryPassages_append, entryPassages, itemPassages, elementPassages_append,
      elementPassages, hsub.lines]
    refine perm_append_added ?_ ..
    rw [List.append_assoc]
    refine List.Perm.append_left _ ?_
    simpa using hsub.passages
  wellMade := h.replace (by
    have hold := h.items (key, .tables (before ++ [(head, sub)])) (by simp)
    rw [wellMade_tables] at hold ⊢
    intro e he
    rcases List.mem_append.mp he with he | he
    · exact hold e (by simp [he])
    · obtain rfl := List.mem_singleton.mp he
      exact ⟨(hold (head, sub) (by simp)).1, hsub.wellMade⟩)

theorem perm {added' : List Passage} (h : Grows path entries entries' added)
    (hperm : added.Perm added') : Grows path entries entries' added' :=
  { h with passages := h.passages.trans (hperm.append_left _) }

/-- What is added with a new entry. -/
theorem of_append (h : entries.WellMade) (hkey : key = .plain key.name)
    (hfresh : find? entries key.name = none) (hitem : item.WellMade)
    (hlines : item.onLines = false) :
    Grows path entries (entries ++ [(key, item)]) (itemPassages path key item) where
  lines path := by
    rw [entryLines_append, entryLines_singleton, itemLines_eq_nil hlines, List.append_nil]
  lineFree hfree := lineFree_append.mpr ⟨hfree, lineFree_cons.mpr ⟨hlines, lineFree_nil⟩⟩
  passages := by rw [entryPassages_append, entryPassages_singleton]
  wellMade := h.append_singleton hfresh hkey hitem

/-- What is added below a new parent. -/
theorem in_parent (h : entries.WellMade) (hkey : key = .plain key.name)
    (hfresh : find? entries key.name = none) (hsub : Grows (path ++ [key]) [] sub added) :
    Grows path entries (entries ++ [(key, .table { origin := .parent } sub)]) added := by
  refine (of_append h hkey hfresh ?_ (by simp [onLines])).perm ?_
  · rw [wellMade_table]
    exact ⟨fun _ => hsub.lineFree lineFree_nil, hsub.wellMade⟩
  · rw [itemPassages, if_neg (by simp)]
    exact hsub.passages

end Grows

/-- What opening a table does: there are the entries that the table has already, none of them on
lines; further lines go to the table, and if they make a tree, they put it after the old entries. -/
structure Passage.Opens (p : Passage) (path : List Key) (entries old : Entries)
    (around : Entries → Entries) : Prop where
  lineFree : old.LineFree
  addUnder : ∀ lines, addUnder [p.key] lines (around old) = (addLines lines old).map around
  grows : ∀ {tree}, LineTree tree → old.Apart tree → Grows path entries (around (old ++ tree))
    [{ p with path, lines := entryLines [] tree }]

/-- A passage with keys in their plainest form and the head of a header. -/
structure Passage.Plain (p : Passage) : Prop where
  path : ∀ k ∈ p.path, k = .plain k.name
  key : p.key = .plain p.key.name
  head : p.head.origin = .header
  lines : ∀ l ∈ p.lines, l.Plain

namespace Passage.Plain

variable {p : Passage}

/-- A new table or array. -/
theorem opens_new (hp : p.Plain) (h : entries.WellMade)
    (hfresh : find? entries p.key.name = none) (path : List Key) :
    p.Opens path entries [] fun sub =>
      entries ++ [(p.key, if p.element then .tables [(p.head, sub)] else .table p.head sub)] where
  lineFree := lineFree_nil
  addUnder lines := by
    split
    · exact addUnder_tables hfresh find?_nil [] lines
    · exact addUnder_table hfresh find?_nil lines
  grows {tree} htree _ := by
    obtain ⟨element, _, key, head, _⟩ := p
    have hhead := hp.head
    dsimp only at hhead hfresh ⊢
    rw [List.nil_append]
    refine (Grows.of_append h hp.key hfresh ?_ ?_).perm ?_
    · split <;> simp [htree.wellMade, hhead]
    · split <;> simp [onLines, hhead]
    · cases element <;>
        simp [itemPassages, elementPassages, htree.entryPassages_eq_nil, hhead]

/-- A header for a table that is only a parent. -/
theorem opens_parent (hp : p.Plain) (helement : p.element = false)
    (h : WellMade (pre ++ (p.key, .table head sub) :: post)) (horigin : head.origin = .parent)
    (hpre : find? pre p.key.name = none) (hpost : find? post p.key.name = none)
    (path : List Key) :
    p.Opens path (pre ++ (p.key, .table head sub) :: post) sub fun sub =>
      pre ++ post ++ [(p.key, .table p.head sub)] := by
  have hitem := h.items (p.key, .table head sub) (by simp)
  rw [wellMade_table] at hitem
  have hnone : find? (pre ++ post) p.key.name = none := by
    rw [find?_append, hpre, hpost, Option.or_none]
  refine ⟨hitem.1 horigin, addUnder_table hnone find?_nil, fun {tree} htree hapart => ?_⟩
  have hrest : WellMade (pre ++ post) :=
    h.sublist ((List.sublist_cons_self ..).append_left pre)
  have hgrows :
      Grows path (pre ++ post) (pre ++ post ++ [(p.key, .table p.head (sub ++ tree))]) _ :=
    .of_append hrest hp.key hnone (by simpa [hp.head] using hitem.2.append_tree htree hapart)
      (by simp [onLines, hp.head])
  refine ⟨fun path => ?_, fun hfree => ?_, ?_, hgrows.wellMade⟩
  · rw [hgrows.lines, entryLines_append, entryLines_append, entryLines,
      itemLines_eq_nil (by simp [onLines, horigin]), List.nil_append]
  · refine hgrows.lineFree ?_
    rw [lineFree_append, lineFree_cons] at hfree
    exact lineFree_append.mpr ⟨hfree.1, hfree.2.2⟩
  · refine hgrows.passages.trans ?_
    rw [itemPassages, if_pos hp.head, entryPassages_append, entryPassages_append,
      entryPassages_append, entryPassages, itemPassages, if_neg (by simp [horigin]),
      entryLines_append, (hitem.1 horigin).entryLines_eq_nil, htree.entryPassages_eq_nil]
    simp only [List.append_assoc, List.append_nil, List.nil_append]
    refine List.Perm.append_left _ ?_
    rw [← List.append_assoc, ← List.append_assoc]
    refine List.perm_append_comm.trans ?_
    rw [List.append_assoc, helement]

/-- A header for the next table of an array. -/
theorem opens_element (hp : p.Plain) (helement : p.element = true)
    {elements : List (Head × Entries)}
    (h : WellMade (pre ++ (p.key, .tables elements) :: post))
    (hpre : find? pre p.key.name = none) (hpost : find? post p.key.name = none)
    (path : List Key) :
    p.Opens path (pre ++ (p.key, .tables elements) :: post) [] fun sub =>
      pre ++ (p.key, .tables (elements ++ [(p.head, sub)])) :: post where
  lineFree := lineFree_nil
  addUnder := addUnder_tables hpre hpost elements
  grows {tree} htree _ := by
    rw [List.nil_append]
    refine ⟨fun path => ?_, fun hfree => ?_, ?_, h.replace ?_⟩
    · simp only [entryLines_append, entryLines, itemLines]
    · simpa [lineFree_append, lineFree_cons, onLines] using hfree
    · simp only [entryPassages_append, entryPassages, itemPassages]
      refine perm_append_added ?_ ..
      rw [elementPassages_append, elementPassages, htree.entryPassages_eq_nil, elementPassages,
        helement]
      rfl
    · have hitem := h.items (p.key, .tables elements) (by simp)
      rw [wellMade_tables] at hitem ⊢
      rw [List.forall_mem_append, List.forall_mem_singleton]
      exact ⟨hitem, hp.head, htree.wellMade⟩

/-- Every table that is opened is one of these. -/
theorem opens (hp : p.Plain) (h : entries.WellMade) (hopen : p.opening entries = some entries')
    (path : List Key) :
    ∃ old around, entries' = around old ∧ p.Opens path entries old around := by
  cases hfind : find? entries p.key.name with
  | none =>
    refine ⟨[], _, ?_, hp.opens_new h hfind path⟩
    cases helement : p.element <;>
      simpa [opening, openTable, openElement, hfind, helement] using hopen.symm
  | some item =>
    obtain ⟨pre, post, rfl, hpre, hpost, -⟩ := h.split hp.key hfind
    cases helement : p.element with
    | false =>
      rw [opening, helement, if_neg (by simp)] at hopen
      cases item with
      | value => simp [openTable, hfind] at hopen
      | tables => simp [openTable, hfind] at hopen
      | table head sub =>
        rw [openTable_of_table hfind, erase_split hpre hpost] at hopen
        split at hopen
        · next horigin =>
          cases hopen
          exact ⟨sub, _, rfl, hp.opens_parent helement h horigin hpre hpost path⟩
        · contradiction
    | true =>
      rw [opening, helement, if_pos rfl] at hopen
      cases item with
      | value => simp [openElement, hfind] at hopen
      | table => simp [openElement, hfind] at hopen
      | tables elements =>
        rw [openElement, hfind] at hopen
        simp only [set_split hpre hpost] at hopen
        cases hopen
        exact ⟨[], _, rfl, hp.opens_element helement h hpre hpost path⟩

/-- A passage where its path ends: it adds itself, with lines that say the same in order. -/
theorem place_grows (hp : p.Plain) (h : entries.WellMade) (hplace : p.place entries = some entries')
    (path : List Key) :
    ∃ tree, LineTree tree ∧
      Grows path entries entries' [{ p with path, lines := entryLines [] tree }] ∧
      { p with lines := entryLines [] tree }.place entries = some entries' := by
  rw [place] at hplace
  obtain ⟨opened, hopen, hlines⟩ := Option.bind_eq_some_iff.mp hplace
  obtain ⟨old, around, rfl, hopens⟩ := hp.opens h hopen path
  rw [hopens.addUnder] at hlines
  obtain ⟨sub, hsub, rfl⟩ := Option.map_eq_some_iff.mp hlines
  obtain ⟨tree, rfl, htree, hapart⟩ := addLines_eq hp.lines hopens.lineFree hsub
  refine ⟨tree, htree, hopens.grows htree hapart, ?_⟩
  rw [place]
  change (p.opening entries).bind (Toml.addUnder [p.key] (entryLines [] tree)) = _
  rw [hopen, Option.bind_some, hopens.addUnder, htree.addLines_entryLines hapart, Option.map_some]

/-- A passage from any table on its way. -/
theorem descend_grows (hp : p.Plain) (below : List Key) (hbelow : ∀ k ∈ below, k = .plain k.name)
    (h : entries.WellMade) (hdescend : descend p.place below entries = some entries')
    (path : List Key) :
    ∃ tree, LineTree tree ∧
      Grows path entries entries'
        [{ p with path := path ++ below, lines := entryLines [] tree }] ∧
      descend { p with lines := entryLines [] tree }.place below entries = some entries' := by
  induction below generalizing entries entries' path with
  | nil =>
    rw [List.append_nil]
    exact hp.place_grows h hdescend path
  | cons key rest ih =>
    obtain ⟨hkey, hrest⟩ := List.forall_mem_cons.mp hbelow
    rw [descend] at hdescend
    cases hfind : find? entries key.name with
    | none =>
      rw [hfind] at hdescend
      obtain ⟨sub, hsub, rfl⟩ := Option.map_eq_some_iff.mp hdescend
      obtain ⟨tree, htree, hgrows, hagain⟩ := ih hrest wellMade_nil hsub (path ++ [key])
      rw [List.append_assoc, List.singleton_append] at hgrows
      refine ⟨tree, htree, hgrows.in_parent h hkey hfind, ?_⟩
      rw [descend, hfind, hagain]
      rfl
    | some item =>
      obtain ⟨pre, post, rfl, hpre, hpost, hitem⟩ := h.split hkey hfind
      rw [hfind] at hdescend
      cases item with
      | value => contradiction
      | table head sub =>
        obtain ⟨sub', hsub, rfl⟩ := Option.map_eq_some_iff.mp hdescend
        rw [wellMade_table] at hitem
        obtain ⟨tree, htree, hgrows, hagain⟩ := ih hrest hitem.2 hsub (path ++ [key])
        rw [List.append_assoc, List.singleton_append] at hgrows
        refine ⟨tree, htree, ?_, ?_⟩
        · rw [set_split hpre hpost]
          exact hgrows.in_table h
        · rw [descend, hfind]
          simp only [hagain, Option.map_some]
      | tables elements =>
        obtain ⟨elements', helements, rfl⟩ := Option.map_eq_some_iff.mp hdescend
        rcases List.eq_nil_or_concat elements with rfl | ⟨before, ⟨head, sub⟩, rfl⟩
        · simp at helements
        · rw [List.concat_eq_append] at h hfind hitem helements ⊢
          rw [inLast_concat] at helements
          obtain ⟨sub', hsub, rfl⟩ := Option.map_eq_some_iff.mp helements
          rw [wellMade_tables] at hitem
          obtain ⟨tree, htree, hgrows, hagain⟩ :=
            ih hrest (hitem (head, sub) (by simp)).2 hsub (path ++ [key])
          rw [List.append_assoc, List.singleton_append] at hgrows
          refine ⟨tree, htree, ?_, ?_⟩
          · rw [set_split hpre hpost]
            exact hgrows.in_tables h
          · rw [descend, hfind]
            simp only [inLast_concat, hagain, Option.map_some]

/-- A passage adds itself to the passages of the tables, with lines that say the same in order. -/
theorem apply_grows (hp : p.Plain) (h : entries.WellMade)
    (happly : p.apply entries = some entries') :
    ∃ tree, LineTree tree ∧ Grows [] entries entries' [{ p with lines := entryLines [] tree }] ∧
      { p with lines := entryLines [] tree }.apply entries = some entries' := by
  rw [apply_eq] at happly
  obtain ⟨tree, htree, hgrows, hagain⟩ := hp.descend_grows p.path hp.path h happly []
  rw [List.nil_append] at hgrows
  refine ⟨tree, htree, hgrows, ?_⟩
  rw [apply_eq]
  exact hagain

end Passage.Plain

/-! ## Whole documents -/

/-- The same passage with lines that are read off a tree. -/
def Passage.Settled (p again : Passage) : Prop :=
  ∃ tree, LineTree tree ∧ again = { p with lines := entryLines [] tree }

/-- The passages that are read off the tables build the tables again. -/
theorem applyAll_replay {passages : List Passage} (hp : ∀ p ∈ passages, p.Plain)
    (h : entries.WellMade) (hrun : applyAll passages entries = some entries') :
    ∃ again, List.Forall₂ Passage.Settled passages again ∧ Grows [] entries entries' again ∧
      applyAll again entries = some entries' := by
  induction passages generalizing entries with
  | nil =>
    cases hrun
    exact ⟨[], .nil, ⟨fun _ => rfl, id, by rw [List.append_nil], h⟩, rfl⟩
  | cons p rest ih =>
    obtain ⟨hp, hrest⟩ := List.forall_mem_cons.mp hp
    rw [applyAll_cons] at hrun
    obtain ⟨middle, happly, hrun⟩ := Option.bind_eq_some_iff.mp hrun
    obtain ⟨tree, htree, hgrows, hagain⟩ := hp.apply_grows h happly
    obtain ⟨again, hsettled, hmore, hrun⟩ := ih hrest hgrows.wellMade hrun
    refine ⟨_, .cons ⟨tree, htree, rfl⟩ hsettled, ⟨fun path => ?_, fun hfree => ?_, ?_, ?_⟩, ?_⟩
    · rw [hmore.lines, hgrows.lines]
    · exact hmore.lineFree (hgrows.lineFree hfree)
    · refine hmore.passages.trans ((hgrows.passages.append_right _).trans ?_)
      rw [List.append_assoc, List.singleton_append]
    · exact hmore.wellMade
    · rw [applyAll_cons, hagain, Option.bind_some, hrun]

/-- A document built from plain lines and passages is built again by what is read off it. -/
theorem document_replay {lines : List Line} {passages : List Passage}
    (hlines : ∀ l ∈ lines, l.Plain) (hp : ∀ p ∈ passages, p.Plain)
    (hrun : (addUnder [] lines []).bind (applyAll passages) = some entries) :
    ∃ again, List.Forall₂ Passage.Settled passages again ∧ entries.WellMade ∧
      (entryPassages [] entries).Perm again ∧
      (addUnder [] (entryLines [] entries) []).bind (applyAll again) = some entries := by
  rw [addUnder_eq_addLines] at hrun ⊢
  obtain ⟨root, hroot, hrun⟩ := Option.bind_eq_some_iff.mp hrun
  obtain ⟨tree, rfl, htree, hapart⟩ := addLines_eq hlines lineFree_nil hroot
  obtain ⟨again, hsettled, hgrows, hagain⟩ := applyAll_replay hp htree.wellMade hrun
  refine ⟨again, hsettled, hgrows.wellMade, ?_, ?_⟩
  · simpa [htree.entryPassages_eq_nil] using hgrows.passages
  · rw [hgrows.lines, htree.addLines_entryLines hapart]
    exact hagain

end VideoSync.Toml
