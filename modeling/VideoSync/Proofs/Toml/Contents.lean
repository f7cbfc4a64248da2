import VideoSync.Proofs.Toml.Respelling

/-
  Tables taken apart again: the lines that a table writes and the passages of the tables below it.
  `Entries.WellMade` says how the tables of a document look when dotted keys are used as they are
  meant, and `LineTree` what the lines under one header make. Lines that are read off such a tree
  make it again: `LineTree.addLines_entryLines`.
-/

namespace VideoSync.Toml

/-! ## Lines and passages of tables -/

namespace Item

mutual

/-- The lines that the values of a table take, dotted keys included. -/
def entryLines (path : List Key) : List (Key × Item) → List Line
  | [] => []
  | (key, item) :: rest => itemLines path key item ++ entryLines path rest

/-- The lines of one entry, none if it has a header. -/
def itemLines (path : List Key) (key : Key) : Item → List Line
  | .value before written after v => [⟨path, key, before, written, after, v⟩]
  | .table head entries => if head.origin = .dotted then entryLines (path ++ [key]) entries else []
  | .tables _ => []

end

mutual

/-- The passages of the tables among some entries. -/
def entryPassages (path : List Key) : List (Key × Item) → List Passage
  | [] => []
  | (key, item) :: rest => itemPassages path key item ++ entryPassages path rest

/-- The passages of the tables that an item holds. -/
def itemPassages (path : List Key) (key : Key) : Item → List Passage
  | .value .. => []
  | .table head entries =>
    (if head.origin = .header then [⟨false, path, key, head, entryLines [] entries⟩] else []) ++
      entryPassages (path ++ [key]) entries
  | .tables elements => elementPassages path key elements

/-- The passages of the tables of an array. -/
def elementPassages (path : List Key) (key : Key) :
    List (Head × List (Key × Item)) → List Passage
  | [] => []
  | (head, entries) :: rest =>
    ⟨true, path, key, head, entryLines [] entries⟩ ::
      (entryPassages (path ++ [key]) entries ++ elementPassages path key rest)

end

end Item

open Item Entries

variable {path : List Key} {key : Key} {item : Item} {entries : Entries}

@[simp] theorem entryLines_nil : entryLines path [] = [] := rfl

@[simp] theorem entryPassages_nil : entryPassages path [] = [] := rfl

theorem entryLines_append (path : List Key) (first second : Entries) :
    entryLines path (first ++ second) = entryLines path first ++ entryLines path second := by
  induction first with
  | nil => rfl
  | cons e rest ih => simp [entryLines, ih]

theorem entryPassages_append (path : List Key) (first second : Entries) :
    entryPassages path (first ++ second) =
      entryPassages path first ++ entryPassages path second := by
  induction first with
  | nil => rfl
  | cons e rest ih => simp [entryPassages, ih]

theorem elementPassages_append (path : List Key) (key : Key)
    (first second : List (Head × Entries)) :
    elementPassages path key (first ++ second) =
      elementPassages path key first ++ elementPassages path key second := by
  induction first with
  | nil => rfl
  | cons e rest ih => simp [elementPassages, ih]

@[simp] theorem entryLines_singleton : entryLines path [(key, item)] = itemLines path key item := by
  simp [entryLines]

@[simp] theorem entryPassages_singleton :
    entryPassages path [(key, item)] = itemPassages path key item := by
  simp [entryPassages]

/-! ## Well-made tables -/

/-- Whether an item is written on lines of the table that holds it. -/
def Item.onLines : Item → Bool
  | .value .. => true
  | .table head _ => head.origin == .dotted
  | .tables _ => false

/-- Entries that are written under headers of their own. -/
def Entries.LineFree (entries : Entries) : Prop := ∀ e ∈ entries, e.2.onLines = false

/-- Each name stands once and in its plainest form. -/
def Entries.Plain (entries : Entries) : Prop :=
  (entries.map (·.1.name)).Nodup ∧ ∀ e ∈ entries, e.1 = .plain e.1.name

namespace Item

mutual

/-- Below the item each name stands once in a table, parents hold no lines, and the tables of arrays
have headers. -/
def WellMade : Item → Prop
  | .value .. => True
  | .table head entries =>
    (head.origin = .parent → Entries.LineFree entries) ∧ Entries.Plain entries ∧
      EntriesWellMade entries
  | .tables elements => ElementsWellMade elements

/-- The items of some entries are well made. -/
def EntriesWellMade : List (Key × Item) → Prop
  | [] => True
  | (_, item) :: rest => item.WellMade ∧ EntriesWellMade rest

/-- The tables of an array are well made. -/
def ElementsWellMade : List (Head × List (Key × Item)) → Prop
  | [] => True
  | (head, entries) :: rest =>
    (head.origin = .header ∧ Entries.Plain entries ∧ EntriesWellMade entries) ∧
      ElementsWellMade rest

end

end Item

/-- Entries whose names are in order here and below. -/
structure Entries.WellMade (entries : Entries) : Prop where
  plain : entries.Plain
  items : ∀ e ∈ entries, e.2.WellMade

namespace Item

theorem entriesWellMade_iff : EntriesWellMade entries ↔ ∀ e ∈ entries, e.2.WellMade := by
  induction entries with
  | nil => simp [EntriesWellMade]
  | cons e rest ih => simp [EntriesWellMade, ih]

@[simp] theorem wellMade_value (before written after : String) (v : Value) :
    (Item.value before written after v).WellMade := trivial

@[simp] theorem wellMade_table (head : Head) (entries : Entries) :
    (Item.table head entries).WellMade ↔
      (head.origin = .parent → entries.LineFree) ∧ entries.WellMade := by
  rw [WellMade, entriesWellMade_iff]
  exact and_congr_right fun _ => ⟨fun ⟨h, h'⟩ => ⟨h, h'⟩, fun ⟨h, h'⟩ => ⟨h, h'⟩⟩

@[simp] theorem wellMade_tables (elements : List (Head × Entries)) :
    (Item.tables elements).WellMade ↔
      ∀ e ∈ elements, e.1.origin = .header ∧ Entries.WellMade e.2 := by
  rw [WellMade]
  induction elements with
  | nil => simp [ElementsWellMade]
  | cons e rest ih =>
    rw [ElementsWellMade, ih, entriesWellMade_iff, List.forall_mem_cons]
    exact and_congr_left fun _ => and_congr_right fun _ =>
      ⟨fun ⟨h, h'⟩ => ⟨h, h'⟩, fun ⟨h, h'⟩ => ⟨h, h'⟩⟩

end Item

namespace Entries

theorem wellMade_nil : WellMade [] := ⟨⟨List.nodup_nil, by simp⟩, by simp⟩

theorem lineFree_nil : LineFree [] := by simp [LineFree]

/-- A new entry at the end. -/
theorem WellMade.append_singleton (h : entries.WellMade) (hfresh : find? entries key.name = none)
    (hkey : key = .plain key.name) (hitem : item.WellMade) :
    WellMade (entries ++ [(key, item)]) where
  plain := by
    refine ⟨?_, ?_⟩
    · rw [List.map_append, List.map_singleton, List.nodup_append]
      refine ⟨h.plain.1, by simp, fun name hname other hother heq => ?_⟩
      obtain ⟨e, he, rfl⟩ := List.mem_map.mp hname
      exact find?_eq_none.mp hfresh e he (heq.trans (List.mem_singleton.mp hother))
    · simpa [or_imp, forall_and] using ⟨fun a b hab => h.plain.2 (a, b) hab, hkey⟩
  items := by simpa [or_imp, forall_and] using ⟨fun a b hab => h.items (a, b) hab, hitem⟩

theorem WellMade.sublist {entries' : Entries} (h : entries.WellMade)
    (hs : entries'.Sublist entries) : entries'.WellMade :=
  ⟨⟨h.plain.1.sublist (hs.map _), fun e he => h.plain.2 e (hs.subset he)⟩,
    fun e he => h.items e (hs.subset he)⟩

/-- A found entry splits the entries, and no other has its name. -/
theorem WellMade.split (h : entries.WellMade) (hkey : key = .plain key.name)
    (hfind : find? entries key.name = some item) :
    ∃ pre post, entries = pre ++ (key, item) :: post ∧ find? pre key.name = none ∧
      find? post key.name = none ∧ item.WellMade := by
  obtain ⟨pre, found, post, rfl, hname, hpre⟩ := exists_of_find? hfind
  have hfound : found = key := by
    rw [hkey, ← hname]
    exact h.plain.2 (found, item) (by simp)
  subst hfound
  refine ⟨pre, post, rfl, hpre, ?_, h.items (found, item) (by simp)⟩
  have hnodup := h.plain.1
  rw [List.map_append, List.map_cons] at hnodup
  have hpost := (List.nodup_cons.mp (List.nodup_append.mp hnodup).2.1).1
  exact find?_eq_none.mpr fun e he heq => hpost (heq ▸ List.mem_map_of_mem he)

/-- Another item in the place of an entry. -/
theorem WellMade.replace {pre post : Entries} {item' : Item}
    (h : WellMade (pre ++ (key, item) :: post)) (hitem : item'.WellMade) :
    WellMade (pre ++ (key, item') :: post) where
  plain := by
    have := h.plain
    simp only [Plain, List.map_append, List.map_cons] at this ⊢
    refine ⟨this.1, fun e he => ?_⟩
    rcases List.mem_append.mp he with he | he
    · exact this.2 e (by simp [he])
    · rcases List.mem_cons.mp he with rfl | he
      · exact this.2 (key, item) (by simp)
      · exact this.2 e (by simp [he])
  items e he := by
    rcases List.mem_append.mp he with he | he
    · exact h.items e (by simp [he])
    · rcases List.mem_cons.mp he with rfl | he
      · exact hitem
      · exact h.items e (by simp [he])

end Entries

/-! ## What the lines under one header make -/

/-- Entries of values and of tables that dotted keys made, none of them empty. -/
inductive LineTree : Entries → Prop
  | nil : LineTree []
  | value {entries : Entries} {key : Key} {before written after : String} {v : Value}
      (h : LineTree entries) (hfresh : find? entries key.name = none)
      (hkey : key = .plain key.name) :
      LineTree (entries ++ [(key, .value before written after v)])
  | dotted {entries : Entries} {key : Key} {sub : Entries}
      (h : LineTree entries) (hfresh : find? entries key.name = none)
      (hkey : key = .plain key.name) (hsub : LineTree sub) (hne : sub ≠ []) :
      LineTree (entries ++ [(key, .table { origin := .dotted } sub)])

/-- A line with keys in their plainest form. -/
structure Line.Plain (l : Line) : Prop where
  path : ∀ k ∈ l.path, k = .plain k.name
  key : l.key = .plain l.key.name

namespace LineTree

variable {entries' sub : Entries} {name : String} {head : Head}

theorem wellMade (h : LineTree entries) : entries.WellMade := by
  induction h with
  | nil => exact wellMade_nil
  | value _ hfresh hkey ih => exact ih.append_singleton hfresh hkey (by simp)
  | dotted _ hfresh hkey _ _ ih ihsub =>
    exact ih.append_singleton hfresh hkey (by simpa using ihsub)

theorem entryPassages_eq_nil (h : LineTree entries) : entryPassages path entries = [] := by
  induction h generalizing path with
  | nil => rfl
  | value _ _ _ ih => rw [entryPassages_append, ih, entryPassages_singleton]; rfl
  | dotted _ _ _ _ _ ih ihsub =>
    rw [entryPassages_append, ih, entryPassages_singleton, itemPassages, ihsub]
    rfl

/-- Nothing in the tree has a header. -/
theorem onLines (h : LineTree entries) (hfind : find? entries name = some item) :
    item.onLines = true := by
  have hall : ∀ e ∈ entries, e.2.onLines = true := by
    clear hfind
    induction h with
    | nil => simp
    | value _ _ _ ih => simpa [or_imp, forall_and, Item.onLines] using ih
    | dotted _ _ _ _ _ ih => simpa [or_imp, forall_and, Item.onLines] using ih
  obtain ⟨pre, key, post, rfl, -, -⟩ := exists_of_find? hfind
  exact hall (key, item) (by simp)

/-- Tables in the tree are made by dotted keys. -/
theorem table (h : LineTree entries) (hfind : find? entries name = some (.table head sub)) :
    head = { origin := .dotted } ∧ LineTree sub ∧ sub ≠ [] := by
  induction h with
  | nil => simp at hfind
  | @value entries key _ _ _ _ _ _ _ ih =>
    rw [find?_append] at hfind
    cases hbefore : find? entries name with
    | some => exact ih (by simpa [hbefore] using hfind)
    | none =>
      rw [hbefore, Option.none_or] at hfind
      by_cases hname : key.name = name
      · subst hname
        simp at hfind
      · simp [find?_singleton_of_ne hname] at hfind
  | @dotted entries key sub _ _ _ hsub hne ih _ =>
    rw [find?_append] at hfind
    cases hbefore : find? entries name with
    | some => exact ih (by simpa [hbefore] using hfind)
    | none =>
      rw [hbefore, Option.none_or] at hfind
      by_cases hname : key.name = name
      · subst hname
        rw [find?_singleton_self] at hfind
        cases hfind
        exact ⟨rfl, hsub, hne⟩
      · simp [find?_singleton_of_ne hname] at hfind

/-- A table of such entries in the place of an entry. -/
theorem set (h : LineTree entries) (hsub : LineTree sub) (hne : sub ≠ []) (name : String) :
    LineTree (Entries.set entries name (.table { origin := .dotted } sub)) := by
  induction h with
  | nil => exact .nil
  | @value entries key _ _ _ _ h hfresh hkey ih =>
    have hfresh' := (find?_set_eq_none name (.table { origin := .dotted } sub) key.name).mpr hfresh
    rw [set_append]
    by_cases hname : key.name = name
    · subst hname
      rw [set_singleton_self]
      exact ih.dotted hfresh' hkey hsub hne
    · rw [set_singleton_of_ne hname]
      exact ih.value hfresh' hkey
  | @dotted entries key old h hfresh hkey hold hold_ne ih _ =>
    have hfresh' := (find?_set_eq_none name (.table { origin := .dotted } sub) key.name).mpr hfresh
    rw [set_append]
    by_cases hname : key.name = name
    · subst hname
      rw [set_singleton_self]
      exact ih.dotted hfresh' hkey hsub hne
    · rw [set_singleton_of_ne hname]
      exact ih.dotted hfresh' hkey hold hold_ne

end LineTree

/-! ## Adding lines -/

/-- Adds lines to the entries of a table. -/
def addLines (lines : List Line) (entries : Entries) : Option Entries :=
  lines.foldlM (fun entries l => l.add entries) entries

@[simp] theorem addLines_nil (entries : Entries) : addLines [] entries = some entries := rfl

@[simp] theorem addLines_cons (l : Line) (rest : List Line) (entries : Entries) :
    addLines (l :: rest) entries = (l.add entries).bind (addLines rest) := List.foldlM_cons ..

theorem addLines_append (lines rest : List Line) (entries : Entries) :
    addLines (lines ++ rest) entries = (addLines lines entries).bind (addLines rest) :=
  List.foldlM_append ..

theorem addUnder_eq_addLines (lines : List Line) : addUnder [] lines = addLines lines := by
  funext entries
  rw [addUnder, addLines]
  simp only [descend_nil]

/-- A table that dotted keys made is no different from one that nobody asks about. -/
theorem addDotted_dotted (key : Key) (item : Item) (path : List Key) (entries : Entries) :
    addDotted key item (some .dotted) path entries = addDotted key item none path entries := by
  cases path with
  | nil => rfl
  | cons first rest => rw [addDotted, addDotted]

theorem alongDotted_nil (path : List Key) : alongDotted path [] = true := by
  cases path <;> rfl

namespace LineTree

variable {entries' sub : Entries}

/-- A line added to such a tree gives another. -/
theorem of_addDotted (h : LineTree entries) {l : Line} (hl : l.Plain) {path : List Key}
    (hpath : ∀ k ∈ path, k = .plain k.name)
    (hadd : Entries.addDotted l.key l.item none path entries = some entries') :
    LineTree entries' ∧ entries' ≠ [] := by
  induction path generalizing entries entries' with
  | nil =>
    rw [Entries.addDotted, if_pos (by rfl), add] at hadd
    split at hadd
    · contradiction
    · next hfresh =>
      cases hadd
      exact ⟨h.value (by simpa using hfresh) hl.key, by simp⟩
  | cons first rest ih =>
    obtain ⟨hfirst, hrest⟩ := List.forall_mem_cons.mp hpath
    rw [Entries.addDotted] at hadd
    split at hadd
    · next hfresh =>
      obtain ⟨sub, hsub, rfl⟩ := Option.map_eq_some_iff.mp hadd
      rw [addDotted_dotted] at hsub
      obtain ⟨htree, hne⟩ := ih .nil hrest hsub
      exact ⟨h.dotted hfresh hfirst htree hne, by simp⟩
    · contradiction
    · next head sub hfind =>
      obtain ⟨rfl, hsub, -⟩ := h.table hfind
      rw [if_neg (by simp), addDotted_dotted] at hadd
      obtain ⟨sub', hsub', rfl⟩ := Option.map_eq_some_iff.mp hadd
      obtain ⟨htree, hne⟩ := ih hsub hrest hsub'
      refine ⟨h.set htree hne _, fun hnil => ?_⟩
      rw [Entries.set, List.map_eq_nil_iff] at hnil
      simp [hnil] at hfind
    · next elements hfind => exact absurd (h.onLines hfind) (by simp [Item.onLines])

/-- The lines of a tree below a key are the lines of the tree, each with the key before it. -/
theorem entryLines_cons (h : LineTree entries) (first : Key) (path : List Key) :
    entryLines (first :: path) entries =
      (entryLines path entries).map fun l => { l with path := first :: l.path } := by
  induction h generalizing path with
  | nil => rfl
  | value _ _ _ ih => simp [entryLines_append, ih, itemLines]
  | dotted _ _ _ _ _ ih ihsub => simp [entryLines_append, ih, itemLines, ihsub]

/-- A tree that is not empty has lines. -/
theorem entryLines_ne_nil (h : LineTree entries) (hne : entries ≠ []) (path : List Key) :
    entryLines path entries ≠ [] := by
  induction h generalizing path with
  | nil => exact absurd rfl hne
  | value => simp [entryLines_append, itemLines]
  | dotted _ _ _ _ hsub _ ihsub => simp [entryLines_append, itemLines, ihsub hsub]

end LineTree

/-- The line below one more key. -/
def Line.below (first : Key) (l : Line) : Line := { l with path := first :: l.path }

theorem Line.add_below_of_none {first : Key} (l : Line)
    (hfresh : find? entries first.name = none) :
    (l.below first).add entries = (l.add []).map fun sub =>
      entries ++ [(first, .table { origin := .dotted } sub)] := by
  rw [add, add, addStrictly, addStrictly, below, alongDotted_nil, alongDotted, hfresh, if_pos rfl,
    if_pos rfl, addDotted, hfresh, addDotted_dotted]
  rfl

theorem Line.add_below_of_dotted {first : Key} {sub : Entries} (l : Line)
    (hfind : find? entries first.name = some (.table { origin := .dotted } sub)) :
    (l.below first).add entries = (l.add sub).map fun sub =>
      Entries.set entries first.name (.table { origin := .dotted } sub) := by
  rw [add, add, addStrictly, addStrictly, below, alongDotted, hfind, addDotted, hfind]
  simp only [addDotted_dotted, item]
  split <;> simp_all

/-- Lines below a key that is not there make one table for all of them. -/
theorem addLines_below {first : Key} (hfresh : find? entries first.name = none) {l : Line}
    {lines : List Line} :
    addLines ((l :: lines).map (Line.below first)) entries =
      (addLines (l :: lines) []).map fun sub =>
        entries ++ [(first, .table { origin := .dotted } sub)] := by
  have hmore (lines : List Line) (sub : Entries) :
      addLines (lines.map (Line.below first))
        (entries ++ [(first, .table { origin := .dotted } sub)]) =
      (addLines lines sub).map fun sub =>
        entries ++ [(first, .table { origin := .dotted } sub)] := by
    induction lines generalizing sub with
    | nil => rfl
    | cons l lines ih =>
      rw [List.map_cons, addLines_cons, addLines_cons, l.add_below_of_dotted (find?_split hfresh)]
      cases l.add sub with
      | none => rfl
      | some sub =>
        rw [Option.map_some, Option.bind_some, Option.bind_some,
          set_split hfresh find?_nil, ih]
  rw [List.map_cons, addLines_cons, addLines_cons, l.add_below_of_none hfresh]
  cases l.add [] with
  | none => rfl
  | some sub => exact hmore lines sub

/-- Nothing of the second entries has a name of the first. -/
def Entries.Apart (first second : Entries) : Prop :=
  ∀ e ∈ second, find? first e.1.name = none

theorem Entries.apart_concat {first second : Entries} :
    first.Apart (second ++ [(key, item)]) ↔ first.Apart second ∧ find? first key.name = none := by
  simp [Apart, or_imp, forall_and]

namespace LineTree

variable {old : Entries}

/-- The lines of a tree make the tree again. -/
theorem addLines_entryLines (h : LineTree entries) (hold : old.Apart entries) :
    addLines (entryLines [] entries) old = some (old ++ entries) := by
  induction h generalizing old with
  | nil => simp
  | @value entries key _ _ _ _ _ hfresh _ ih =>
    obtain ⟨hold, hname⟩ := apart_concat.mp hold
    have hkey : find? (old ++ entries) key.name = none := by
      rw [find?_append, hname, hfresh, Option.or_none]
    rw [entryLines_append, addLines_append, ih hold, Option.bind_some, entryLines_singleton,
      itemLines, addLines_cons, Line.add, addStrictly]
    simp [alongDotted, Entries.addDotted, add, hkey, Line.item]
  | @dotted entries key sub _ hfresh _ hsub hne ih ihsub =>
    obtain ⟨hold, hname⟩ := apart_concat.mp hold
    have hkey : find? (old ++ entries) key.name = none := by
      rw [find?_append, hname, hfresh, Option.or_none]
    have hlines := ihsub (fun _ _ => rfl : Entries.Apart [] sub)
    obtain ⟨l, lines, hcons⟩ := List.exists_cons_of_ne_nil (hsub.entryLines_ne_nil hne [])
    rw [entryLines_append, addLines_append, ih hold, Option.bind_some, entryLines_singleton,
      itemLines, if_pos rfl, List.nil_append, hsub.entryLines_cons]
    rw [hcons] at hlines ⊢
    refine (addLines_below hkey).trans ?_
    rw [hlines, Option.map_some, List.nil_append, List.append_assoc]

end LineTree

/-- A table of dotted keys is no entry that has headers. -/
theorem find?_eq_none_of_dotted {old entries sub : Entries} {head : Head} {name : String}
    (hold : old.LineFree) (hfind : find? (old ++ entries) name = some (.table head sub))
    (horigin : head.origin = .dotted) : find? old name = none := by
  cases hfound : find? old name with
  | none => rfl
  | some item =>
    obtain ⟨pre, key, post, hsplit, -, -⟩ := exists_of_find? hfound
    rw [find?_append, hfound, Option.some_or] at hfind
    cases hfind
    have hfree := hold (key, .table head sub) (by simp [hsplit])
    simp [Item.onLines, horigin] at hfree

/-- A line added to entries with headers and a tree goes to the tree. -/
theorem Line.Plain.add {old entries entries' : Entries} {l : Line} (hl : l.Plain)
    (hold : old.LineFree) (h : LineTree entries) (hapart : old.Apart entries)
    (hadd : l.add (old ++ entries) = some entries') :
    ∃ more, entries' = old ++ more ∧ LineTree more ∧ old.Apart more := by
  rw [Line.add, addStrictly] at hadd
  split at hadd
  case isFalse => contradiction
  next halong =>
  cases hpath : l.path with
  | nil =>
    rw [hpath, addDotted, if_pos (by rfl), Entries.add] at hadd
    split at hadd
    · contradiction
    · next hfresh =>
      cases hadd
      rw [Option.not_isSome_iff_eq_none, find?_append, Option.or_eq_none_iff] at hfresh
      exact ⟨entries ++ [(l.key, l.item)], List.append_assoc .., h.value hfresh.2 hl.key,
        apart_concat.mpr ⟨hapart, hfresh.1⟩⟩
  | cons first rest =>
    have hkeys := hl.path
    rw [hpath] at hadd halong hkeys
    obtain ⟨hfirst, hrest⟩ := List.forall_mem_cons.mp hkeys
    rw [addDotted] at hadd
    rw [alongDotted] at halong
    split at hadd
    · next hfresh =>
      obtain ⟨sub, hsub, rfl⟩ := Option.map_eq_some_iff.mp hadd
      rw [addDotted_dotted] at hsub
      obtain ⟨htree, hne⟩ := LineTree.nil.of_addDotted hl hrest hsub
      rw [find?_append, Option.or_eq_none_iff] at hfresh
      exact ⟨_, List.append_assoc .., h.dotted hfresh.2 hfirst htree hne,
        apart_concat.mpr ⟨hapart, hfresh.1⟩⟩
    · contradiction
    · next head sub hfind =>
      rw [hfind] at halong
      have horigin : head.origin = .dotted := by
        simp only [Bool.and_eq_true, beq_iff_eq] at halong
        exact halong.1
      have hnone := find?_eq_none_of_dotted hold hfind horigin
      rw [find?_append, hnone, Option.none_or] at hfind
      obtain ⟨rfl, hsub, -⟩ := h.table hfind
      rw [if_neg (by simp), addDotted_dotted] at hadd
      obtain ⟨sub', hsub', rfl⟩ := Option.map_eq_some_iff.mp hadd
      obtain ⟨htree, hne⟩ := hsub.of_addDotted hl hrest hsub'
      refine ⟨set entries first.name (.table { origin := .dotted } sub'), ?_,
        h.set htree hne _, ?_⟩
      · rw [set_append, set_of_find?_eq_none hnone]
      · intro e he
        obtain ⟨e', he', rfl⟩ := List.mem_map.mp he
        have := hapart e' he'
        split <;> exact this
    · next elements hfind => simp [hfind] at halong

/-- Lines added to entries with headers make a tree after them. -/
theorem addLines_eq {old entries' : Entries} {lines : List Line} (hlines : ∀ l ∈ lines, l.Plain)
    (hold : old.LineFree) (hall : addLines lines old = some entries') :
    ∃ more, entries' = old ++ more ∧ LineTree more ∧ old.Apart more := by
  have hrun (entries : Entries) (h : LineTree entries) (hapart : old.Apart entries)
      (hadd : addLines lines (old ++ entries) = some entries') :
      ∃ more, entries' = old ++ more ∧ LineTree more ∧ old.Apart more := by
    clear hall
    induction lines generalizing entries with
    | nil =>
      cases hadd
      exact ⟨entries, rfl, h, hapart⟩
    | cons l lines ih =>
      obtain ⟨hl, hlines⟩ := List.forall_mem_cons.mp hlines
      rw [addLines_cons] at hadd
      obtain ⟨middle, hmiddle, hadd⟩ := Option.bind_eq_some_iff.mp hadd
      obtain ⟨more, rfl, hmore, hapart⟩ := hl.add hold h hapart hmiddle
      exact ih hlines more hmore hapart hadd
  exact hrun [] .nil (by simp [Entries.Apart]) (by rwa [List.append_nil])

end VideoSync.Toml
