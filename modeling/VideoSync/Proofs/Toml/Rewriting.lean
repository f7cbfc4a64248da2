import VideoSync.Proofs.Toml.Replacement
import VideoSync.Proofs.Toml.Spelling

/-
  Reading what was written. A document that is read strictly, has a table put in the place of a
  top-level name and is written, is read again: `parseStrictly?_put`. Every other name has then what
  it had, up to spelling, and the name has the table. The text before the keys of plain values is
  followed as well, since a later table takes such a key over.
-/

namespace VideoSync.Toml

open Item Entries

namespace Document

/-- The document that a text writes, with dotted keys only as they are meant. -/
def parseStrictly? (text : String) : Option Document :=
  (statements? text).bind fun (ss, trailing) =>
    (Progress.takeAllStrictly {} ss).map fun p => ⟨p.entries, trailing⟩

end Document

theorem Progress.take_of_takeStrictly {p p' : Progress} {s : Statement}
    (h : p.takeStrictly s = some p') : p.take s = some p' := by
  cases s with
  | header => exact h
  | assign l =>
    obtain ⟨entries, hentries, rfl⟩ := Option.map_eq_some_iff.mp h
    have hadd : descend (Entries.addDotted l.key l.item none l.path) p.path p.entries =
        some entries := by
      refine descend_mono (fun {entries entries'} hstrict => ?_) hentries
      rw [addStrictly] at hstrict
      split at hstrict
      · exact hstrict
      · contradiction
    rw [take, add, hadd]
    rfl

theorem Progress.takeAll_of_takeAllStrictly {p p' : Progress} {ss : List Statement}
    (h : p.takeAllStrictly ss = some p') : p.takeAll ss = some p' := by
  induction ss generalizing p with
  | nil => exact h
  | cons s rest ih =>
    rw [takeAllStrictly_cons] at h
    obtain ⟨middle, hmiddle, hmore⟩ := Option.bind_eq_some_iff.mp h
    rw [takeAll_cons, take_of_takeStrictly hmiddle, Option.bind_some, ih hmore]

namespace Document

theorem exists_of_parseStrictly? {text : String} {d : Document} (h : parseStrictly? text = some d) :
    ∃ ss p, statements? text = some (ss, d.trailing) ∧
      Progress.takeAllStrictly {} ss = some p ∧ d.entries = p.entries := by
  obtain ⟨⟨ss, trailing⟩, hss, h⟩ := Option.bind_eq_some_iff.mp h
  obtain ⟨p, hp, rfl⟩ := Option.map_eq_some_iff.mp h
  exact ⟨ss, p, hss, hp, rfl⟩

/-- What is read strictly is read. -/
theorem parse?_of_parseStrictly? {text : String} {d : Document}
    (h : parseStrictly? text = some d) : parse? text = some d := by
  obtain ⟨ss, p, hss, hp, hentries⟩ := exists_of_parseStrictly? h
  rw [parse?_eq, hss, Option.bind_some]
  simp only [Progress.takeAll_of_takeAllStrictly hp, Option.map_some, ← hentries]

end Document

/-! ## Plain values at the top -/

/-- Whether an item is a plain value. -/
def Item.isValue : Item → Bool
  | .value .. => true
  | _ => false

section Values

variable {entries entries' : Entries} {e : Key × Item} {f : Entries → Option Entries}

theorem mem_of_mem_set {name : String} {item : Item} (hitem : item.isValue = false)
    (he : e ∈ set entries name item) (hvalue : e.2.isValue = true) : e ∈ entries := by
  obtain ⟨old, hold, rfl⟩ := List.mem_map.mp he
  split at hvalue
  · simp [hitem] at hvalue
  · next hname => rwa [if_neg hname]

theorem mem_of_mem_append {key : Key} {item : Item} (hitem : item.isValue = false)
    (he : e ∈ entries ++ [(key, item)]) (hvalue : e.2.isValue = true) : e ∈ entries := by
  rcases List.mem_append.mp he with he | he
  · exact he
  · rw [List.mem_singleton.mp he] at hvalue
    simp [hitem] at hvalue

/-- Changes below a key add no plain value to the top. -/
theorem mem_of_descend {key : Key} {rest : List Key}
    (h : descend f (key :: rest) entries = some entries') (he : e ∈ entries')
    (hvalue : e.2.isValue = true) : e ∈ entries := by
  rw [descend] at h
  split at h
  · obtain ⟨sub, -, rfl⟩ := Option.map_eq_some_iff.mp h
    exact mem_of_mem_append rfl he hvalue
  · contradiction
  · obtain ⟨sub, -, rfl⟩ := Option.map_eq_some_iff.mp h
    exact mem_of_mem_set rfl he hvalue
  · obtain ⟨elements, -, rfl⟩ := Option.map_eq_some_iff.mp h
    exact mem_of_mem_set rfl he hvalue

theorem mem_of_openTable {key : Key} {head : Head} (h : openTable key head entries = some entries')
    (he : e ∈ entries') (hvalue : e.2.isValue = true) : e ∈ entries := by
  rw [openTable] at h
  split at h
  · cases h
    exact mem_of_mem_append rfl he hvalue
  · cases h
    exact List.mem_of_mem_filter (mem_of_mem_append rfl he hvalue)
  · contradiction

theorem mem_of_openElement {key : Key} {head : Head}
    (h : openElement key head entries = some entries') (he : e ∈ entries')
    (hvalue : e.2.isValue = true) : e ∈ entries := by
  rw [openElement] at h
  split at h
  · cases h
    exact mem_of_mem_append rfl he hvalue
  · cases h
    exact mem_of_mem_set rfl he hvalue
  · contradiction

theorem mem_of_addUnder {key : Key} {rest : List Key} {lines : List Line}
    (h : addUnder (key :: rest) lines entries = some entries') (he : e ∈ entries')
    (hvalue : e.2.isValue = true) : e ∈ entries := by
  induction lines generalizing entries with
  | nil =>
    cases h
    exact he
  | cons l lines ih =>
    rw [addUnder_cons] at h
    obtain ⟨middle, hmiddle, hmore⟩ := Option.bind_eq_some_iff.mp h
    exact mem_of_descend hmiddle (ih hmore) hvalue

/-- A header and its lines add no plain value to the top. -/
theorem Passage.mem_of_apply {p : Passage} (h : p.apply entries = some entries') (he : e ∈ entries')
    (hvalue : e.2.isValue = true) : e ∈ entries := by
  rw [Passage.apply] at h
  obtain ⟨middle, hmiddle, hmore⟩ := Option.bind_eq_some_iff.mp h
  have hmem : e ∈ middle := by
    cases hpath : p.path with
    | nil => exact mem_of_addUnder (by rwa [hpath] at hmore) he hvalue
    | cons key rest => exact mem_of_addUnder (by rwa [hpath] at hmore) he hvalue
  cases hpath : p.path with
  | nil =>
    rw [hpath, descend_nil, Passage.opening] at hmiddle
    split at hmiddle
    · exact mem_of_openElement hmiddle hmem hvalue
    · exact mem_of_openTable hmiddle hmem hvalue
  | cons key rest =>
    rw [hpath] at hmiddle
    exact mem_of_descend hmiddle hmem hvalue

theorem mem_of_applyAll {passages : List Passage} (h : applyAll passages entries = some entries')
    (he : e ∈ entries') (hvalue : e.2.isValue = true) : e ∈ entries := by
  induction passages generalizing entries with
  | nil =>
    cases h
    exact he
  | cons p passages ih =>
    rw [applyAll_cons] at h
    obtain ⟨middle, hmiddle, hmore⟩ := Option.bind_eq_some_iff.mp h
    exact p.mem_of_apply hmiddle (ih hmore) hvalue

/-- A line with a key that has no dots adds a plain value to the top; any other adds none. -/
theorem Line.mem_of_add {l : Line} (h : l.add entries = some entries') (he : e ∈ entries')
    (hvalue : e.2.isValue = true) : e ∈ entries ∨ l.path = [] ∧ e.1 = l.key := by
  rw [Line.add, addStrictly] at h
  split at h
  case isFalse => contradiction
  cases hpath : l.path with
  | nil =>
    rw [hpath, Entries.addDotted, if_pos (by rfl), Entries.add] at h
    split at h
    · contradiction
    · cases h
      rcases List.mem_append.mp he with he | he
      · exact .inl he
      · exact .inr ⟨rfl, by rw [List.mem_singleton.mp he]⟩
  | cons first rest =>
    left
    rw [hpath, Entries.addDotted] at h
    split at h
    · obtain ⟨sub, -, rfl⟩ := Option.map_eq_some_iff.mp h
      exact mem_of_mem_append rfl he hvalue
    · contradiction
    · split at h
      · contradiction
      · obtain ⟨sub, -, rfl⟩ := Option.map_eq_some_iff.mp h
        exact mem_of_mem_set rfl he hvalue
    · obtain ⟨elements, -, rfl⟩ := Option.map_eq_some_iff.mp h
      exact mem_of_mem_set rfl he hvalue

theorem exists_line_of_addLines {lines : List Line} (h : addLines lines entries = some entries')
    (he : e ∈ entries') (hvalue : e.2.isValue = true) :
    e ∈ entries ∨ ∃ l ∈ lines, l.path = [] ∧ e.1 = l.key := by
  induction lines generalizing entries with
  | nil =>
    cases h
    exact .inl he
  | cons l lines ih =>
    rw [addLines_cons] at h
    obtain ⟨middle, hmiddle, hmore⟩ := Option.bind_eq_some_iff.mp h
    rcases ih hmore with hmem | ⟨l', hl', hkey⟩
    · rcases l.mem_of_add hmiddle hmem hvalue with hmem | hkey
      · exact .inl hmem
      · exact .inr ⟨l, by simp, hkey⟩
    · exact .inr ⟨l', by simp [hl'], hkey⟩

/-- A plain value at the top was read on a line before all headers. -/
theorem exists_line {ss : List Statement} {p : Progress}
    (h : Progress.takeAllStrictly {} ss = some p) (he : e ∈ p.entries)
    (hvalue : e.2.isValue = true) : ∃ l ∈ (outline 0 ss).1, l.path = [] ∧ e.1 = l.key := by
  have hbuild := takeAllStrictly_eq {} ss
  rw [h, Option.map_some] at hbuild
  obtain ⟨middle, hlines, hpassages⟩ := Option.bind_eq_some_iff.mp hbuild.symm
  change addUnder [] _ [] = some middle at hlines
  rw [addUnder_eq_addLines] at hlines
  have hmem := mem_of_applyAll hpassages he hvalue
  simpa using exists_line_of_addLines hlines hmem hvalue

end Values

mutual

theorem prefix_of_mem_entryLines : ∀ (entries : List (Key × Item)) {path : List Key} {l : Line},
    l ∈ entryLines path entries → path <+: l.path
  | [], _, _, h => by simp at h
  | (key, item) :: rest, path, l, h => by
    rcases List.mem_append.mp h with h | h
    · exact prefix_of_mem_itemLines item h
    · exact prefix_of_mem_entryLines rest h

theorem prefix_of_mem_itemLines : ∀ (item : Item) {path : List Key} {key : Key} {l : Line},
    l ∈ itemLines path key item → path <+: l.path
  | .value .., path, key, l, h => by
    obtain rfl := List.mem_singleton.mp h
    exact List.prefix_rfl
  | .table head entries, path, key, l, h => by
    rw [itemLines] at h
    split at h
    · exact (List.prefix_append path [key]).trans (prefix_of_mem_entryLines entries h)
    · simp at h
  | .tables _, path, key, l, h => by simp [itemLines] at h

end

/-- A line of the top with a key that has no dots is written for a plain value. -/
theorem exists_value_of_mem_entryLines {entries : Entries} {l : Line}
    (h : l ∈ entryLines [] entries) (hpath : l.path = []) :
    ∃ e ∈ entries, e.2.isValue = true ∧ e.1 = l.key := by
  induction entries with
  | nil => simp at h
  | cons e rest ih =>
    obtain ⟨key, item⟩ := e
    rcases List.mem_append.mp h with h | h
    · cases item with
      | value => exact ⟨_, List.mem_cons_self, rfl, by rw [List.mem_singleton.mp h]⟩
      | table head entries =>
        rw [itemLines] at h
        split at h
        · have hprefix := prefix_of_mem_entryLines entries h
          rw [hpath] at hprefix
          simp at hprefix
        · simp at h
      | tables => simp [itemLines] at h
    · obtain ⟨e, he, hvalue⟩ := ih h
      exact ⟨e, List.mem_cons_of_mem _ he, hvalue⟩

/-! ## A document that is written and read again -/

theorem Statement.Again.respell {s s' : Statement} (h : s.Again s') :
    s'.respell .bare = s.respell .bare := by
  have hplain {path path' : List Key} {key key' : Key}
      (h : (path' ++ [key']).map (·.name) = (path ++ [key]).map (·.name)) :
      path'.map Respelling.bare.key = path.map Respelling.bare.key ∧
        Respelling.bare.key key' = Respelling.bare.key key := by
    have hmap : (path' ++ [key']).map Respelling.bare.key =
        (path ++ [key]).map Respelling.bare.key := by
      have := congrArg (List.map Key.plain) h
      simpa [Respelling.bare, Function.comp_def] using this
    rw [List.map_append, List.map_append] at hmap
    obtain ⟨hpath, hkey⟩ := List.append_inj' hmap rfl
    exact ⟨hpath, (List.cons.inj hkey).1⟩
  cases h with
  | header names =>
    obtain ⟨hpath, hkey⟩ := hplain names
    rw [Statement.respell, Statement.respell, hpath, hkey]
  | assign names before value =>
    obtain ⟨hpath, hkey⟩ := hplain names
    rw [Statement.respell, Statement.respell, Line.respell, Line.respell, hpath, hkey, value]

theorem respell_of_again {ss ss' : List Statement} (h : List.Forall₂ Statement.Again ss ss') :
    ss'.map (Statement.respell .bare) = ss.map (Statement.respell .bare) := by
  induction h with
  | nil => rfl
  | cons hs _ ih => rw [List.map_cons, List.map_cons, hs.respell, ih]

/-- Each line before all headers was written for one. -/
theorem exists_line_of_again {ss ss' : List Statement} (h : List.Forall₂ Statement.Again ss ss')
    (headers headers' : Nat) {l' : Line} (hl' : l' ∈ (outline headers' ss').1) :
    ∃ l ∈ (outline headers ss).1, (Statement.assign l).Again (.assign l') := by
  induction h generalizing headers headers' with
  | nil => simp [outline] at hl'
  | @cons s s' ss ss' hs _ ih =>
    cases hs with
    | header => simp [outline] at hl'
    | @assign l _ names before value =>
      rw [outline] at hl'
      rcases List.mem_cons.mp hl' with rfl | hl'
      · exact ⟨l, by simp [outline], .assign names before value⟩
      · obtain ⟨l, hl, hagain⟩ := ih headers headers' hl'
        exact ⟨l, by simp [outline, hl], hagain⟩

namespace Document

/-- Only blanks stand before the keys of a name, and so a header can be made of them. -/
def Unannotated (d : Document) (name : String) : Prop :=
  ∀ e ∈ d.entries, e.1.name = name → Blanks e.1.before.toList

theorem outline_statements_lines {d : Document} (hsound : ∀ b ∈ sortedBlocks d.entries, b.Sound) :
    (outline 0 d.statements).1 = entryLines [] d.entries := by
  rw [statements, outline_assign_append, (outline_blocksStatements 0 _ hsound).1, List.append_nil]

/-- Only blanks stand in a text with blanks and line breaks that keeps no line break. -/
theorem blanks_of_clean {g : List Char} (hreturns : '\r' ∈ g → '\n' ∈ g) (h : Blanks (clean g)) :
    Blanks g := by
  have hnone : '\r' ∉ g := fun hmem => by
    have hnewline : '\n' ∈ clean g := List.mem_filter.mpr ⟨hreturns hmem, by decide⟩
    exact absurd (h _ hnewline) (by decide)
  rwa [clean_eq_self hnone] at h

/-- A plain value at the top that is read again was there before, and the text before its key is the
old one without carriage returns. -/
theorem exists_value_of_again {d : Document} (hsound : ∀ b ∈ sortedBlocks d.entries, b.Sound)
    {ss' : List Statement} (hagain : List.Forall₂ Statement.Again d.statements ss') {p' : Progress}
    (hp' : Progress.takeAllStrictly {} ss' = some p') {e' : Key × Item} (he' : e' ∈ p'.entries)
    (hvalue : e'.2.isValue = true) :
    ∃ e ∈ d.entries, e.2.isValue = true ∧ e.1.name = e'.1.name ∧
      e'.1.before.toList = clean e.1.before.toList := by
  obtain ⟨l', hl', hpath', hkey'⟩ := exists_line hp' he' hvalue
  obtain ⟨l, hl, hagain⟩ := exists_line_of_again hagain 0 0 hl'
  rw [outline_statements_lines hsound] at hl
  cases hagain with
  | assign names before value =>
    rw [hpath', List.nil_append, List.map_singleton] at names
    obtain ⟨hpath, hname⟩ : l.path = [] ∧ l'.key.name = l.key.name := by
      cases hpath : l.path with
      | nil => simpa [hpath] using names
      | cons => simp [hpath] at names
    obtain ⟨e, he, hvalue, hkey⟩ := exists_value_of_mem_entryLines hl hpath
    refine ⟨e, he, hvalue, ?_, ?_⟩
    · rw [hkey, hkey', hname]
    · rw [hkey, hkey', before]

/-- Below a key that is spelled, only a plain value can have more than blanks before the key. -/
theorem blanks_or_isValue {e : Key × Item} (h : e.2.Spelled e.1) :
    Blanks e.1.before.toList ∨ e.2.isValue = true := by
  obtain ⟨key, item⟩ := e
  cases item with
  | value => exact .inr rfl
  | table => exact .inl (spelled_table.mp h).1.before
  | tables => exact .inl (spelled_tables.mp h).1.before

theorem leading_of_isValue {e : Key × Item} (h : e.2.Spelled e.1) (hvalue : e.2.isValue = true) :
    Leading e.1.before.toList := by
  obtain ⟨key, item⟩ := e
  cases item with
  | value => exact Line.Spelled.leading h
  | table => simp [isValue] at hvalue
  | tables => simp [isValue] at hvalue

theorem exists_of_restrict_eq {r : Respelling} {entries entries' : Entries} {name : String}
    (h : restrict name (Entries.respell r entries') = restrict name (Entries.respell r entries))
    {e : Key × Item} (he : e ∈ entries) (hname : e.1.name = name) :
    ∃ e' ∈ entries', e'.1.name = name ∧ e'.2.respell r = e.2.respell r := by
  have hmem : (r.key e.1, e.2.respell r) ∈ restrict name (Entries.respell r entries') := by
    rw [h]
    exact List.mem_filter.mpr ⟨List.mem_map_of_mem he, by simpa using hname⟩
  obtain ⟨hmem, hname'⟩ := List.mem_filter.mp hmem
  obtain ⟨e', he', heq⟩ := List.mem_map.mp hmem
  refine ⟨e', he', ?_, (Prod.ext_iff.mp heq).2⟩
  have := congrArg Key.name (Prod.ext_iff.mp heq).1
  simp at this
  rw [this, hname]

theorem isValue_respell (r : Respelling) (item : Item) :
    (item.respell r).isValue = item.isValue := by
  cases item <;> simp [isValue]

/-- The values after a table took the place of a name were there before. -/
theorem mem_of_mem_put {d : Document} {name : String} {tree : Entries} {e : Key × Item}
    (he : e ∈ (d.put name (.table {} tree)).entries) (hvalue : e.2.isValue = true) :
    e ∈ d.entries := by
  have hitem : (Item.table {} tree).isValue = false := rfl
  rw [put] at he
  dsimp only at he
  split at he
  · exact mem_of_mem_set hitem he hvalue
  · exact mem_of_mem_append hitem he hvalue

/-- More than blanks before a key stays there, and nothing is added, where the values of the new
document were in the old one and only one name without annotations may have changed. -/
theorem unannotated_iff_of_values {d d' : Document} {name : String} (hd : d.entries.Spelled)
    (hd' : d'.entries.Spelled) (hfree : d.Unannotated name)
    (hothers : ∀ other, other ≠ name → restrict other (Entries.respell .bare d'.entries) =
      restrict other (Entries.respell .bare d.entries))
    (hvalues : ∀ e' ∈ d'.entries, e'.2.isValue = true → ∃ e ∈ d.entries, e.2.isValue = true ∧
      e.1.name = e'.1.name ∧ e'.1.before.toList = clean e.1.before.toList)
    (other : String) : d'.Unannotated other ↔ d.Unannotated other := by
  constructor
  · intro hother e he hname
    rcases blanks_or_isValue (hd.items e he) with hblanks | hvalue
    · exact hblanks
    by_cases hsame : other = name
    · exact hfree e he (hname.trans hsame)
    obtain ⟨e', he', hname', hitem⟩ := exists_of_restrict_eq (hothers other hsame) he hname
    have hvalue' : e'.2.isValue = true := by
      rw [← isValue_respell .bare, hitem, isValue_respell, hvalue]
    obtain ⟨old, hold, -, holdname, hbefore⟩ := hvalues e' he' hvalue'
    obtain rfl : old = e :=
      List.inj_on_of_nodup_map hd.nodup hold he (by rw [holdname, hname', hname])
    have hblanks := hother e' he' hname'
    rw [hbefore] at hblanks
    exact blanks_of_clean (leading_of_isValue (hd.items old he) hvalue).returns hblanks
  · intro hother e he hname
    rcases blanks_or_isValue (hd'.items e he) with hblanks | hvalue
    · exact hblanks
    obtain ⟨old, hold, -, holdname, hbefore⟩ := hvalues e he hvalue
    have hblanks := hother old hold (by rw [holdname, hname])
    rw [hbefore, clean_eq_self hblanks.noReturn]
    exact hblanks

/-- A document in which a table takes the place of a name says the same of every other name when it
is written and read again. -/
theorem parseStrictly?_put {text : String} {d : Document} (hd : parseStrictly? text = some d)
    {name : String} (hname : (Key.plain name).Within) (hfree : d.Unannotated name)
    {tree : Entries} (htree : LineTree (Entries.respell .plainKeys tree))
    (hspelled : tree.Spelled) :
    ∃ d', parseStrictly? (d.put name (.table {} tree)).render = some d' ∧
      (∀ other, other ≠ name → restrict other (Entries.respell .bare d'.entries) =
        restrict other (Entries.respell .bare d.entries)) ∧
      restrict name (Entries.respell .bare d'.entries) =
        [(.plain name, .table {} (Entries.respell .bare tree))] ∧
      ∀ other, d'.Unannotated other ↔ d.Unannotated other := by
  obtain ⟨ss, p, hss, hp, hentries⟩ := exists_of_parseStrictly? hd
  obtain ⟨hall, hgap⟩ := statements?_spelled hss
  have hstart : Progress.Spelled {} := ⟨.nil, by simp⟩
  have hd_spelled : d.entries.Spelled := by
    rw [hentries]
    exact (hstart.takeAllStrictly hall hp).entries
  have hreplaced : Replaced ss p name tree (d.put name (.table {} tree)) :=
    ⟨hp, htree, by rw [put, put, hentries]⟩
  have hput := put_spelled hd_spelled hname hfree hspelled
  have hwritten := statements_spelled hput hreplaced.sound
  obtain ⟨ss', hagain, hss'⟩ := statements?_textOf hwritten
    (d.put name (.table {} tree)).trailing hgap
  obtain ⟨p', hp', hothers, hself⟩ := hreplaced.takeAllStrictly (respell_of_again hagain)
  have hp'_spelled := (hstart.takeAllStrictly (statements?_spelled hss').1 hp').entries
  have hread : parseStrictly? (d.put name (.table {} tree)).render =
      some ⟨p'.entries, String.ofList (clean d.trailing.toList)⟩ := by
    rw [render_eq hreplaced.sound, parseStrictly?, hss', Option.bind_some]
    simp only [hp', Option.map_some]
    rfl
  have hothers (other : String) (hother : other ≠ name) :
      restrict other (Entries.respell .bare p'.entries) =
        restrict other (Entries.respell .bare d.entries) := by
    rw [hothers other hother, hentries]
  refine ⟨_, hread, hothers, hself, ?_⟩
  refine unannotated_iff_of_values hd_spelled hp'_spelled hfree hothers fun e' he' hvalue' => ?_
  obtain ⟨old, hold, hvalue, hsame, hbefore⟩ :=
    exists_value_of_again hreplaced.sound hagain hp' he' hvalue'
  exact ⟨old, mem_of_mem_put hold hvalue, hvalue, hsame, hbefore⟩

end Document

end VideoSync.Toml
