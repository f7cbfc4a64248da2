import VideoSync.Proofs.Toml.Rewriting
import VideoSync.Proofs.Toml.Scalars

/-
  Fields that are written, one on each line, and read again: `exists_valueLines`. The tables that
  come out of it can be put into any document.
-/

namespace VideoSync.Toml

open Item Entries Document

/-! ## The lines of fields -/

/-- The line that a field is written on. -/
def fieldLine (name text : String) (v : Value) : Line :=
  ⟨[], { name, written := name, after := " " }, " ", text, "", v⟩

/-- A line is written for a field, and its value says what the field says. -/
structure WritesField (field : String × Datum) (l : Line) : Prop where
  name : (Key.plain field.1).Within
  text : scalarText? field.2 = some l.written
  line : l = fieldLine field.1 l.written l.value
  writes : Writes l.value l.written.toList
  noReturn : '\r' ∉ l.written.toList
  datum : l.value.toDatum = field.2

variable {fields : List (String × Datum)} {lines : List Line}

theorem WritesField.spelled {field : String × Datum} {l : Line} (h : WritesField field l) :
    l.Spelled := by
  have hblank : Blanks " ".toList := by
    intro c hc
    rw [List.mem_singleton.mp hc]
    decide
  have hwrites := h.writes
  rw [h.line] at hwrites ⊢
  exact ⟨by simp [fieldLine], ⟨h.name.spelled.written, blanks_empty, blanks_empty, hblank⟩,
    ⟨fun _ => .nil, by simp [fieldLine]⟩, hblank, hwrites, .of_blanks blanks_empty⟩

theorem WritesField.text_eq {field : String × Datum} {l : Line} (h : WritesField field l) :
    l.text = field.1 ++ " = " ++ l.written ++ "\n" := by
  rw [h.line]
  simp [Line.text, fieldLine, keyText, keyText.between, String.append_assoc]

theorem WritesField.path_eq {field : String × Datum} {l : Line} (h : WritesField field l) :
    l.path = [] := by
  rw [h.line]
  rfl

theorem WritesField.key_name {field : String × Datum} {l : Line} (h : WritesField field l) :
    l.key.name = field.1 := by
  rw [h.line]
  rfl

theorem exists_field (h : List.Forall₂ WritesField fields lines) {l : Line} (hl : l ∈ lines) :
    ∃ field ∈ fields, WritesField field l := by
  induction h with
  | nil => simp at hl
  | @cons field _ _ _ hfield _ ih =>
    rcases List.mem_cons.mp hl with rfl | hl
    · exact ⟨field, List.mem_cons_self, hfield⟩
    · obtain ⟨field, hmem, hfield⟩ := ih hl
      exact ⟨field, List.mem_cons_of_mem _ hmem, hfield⟩

/-- The lines say what the fields say. -/
theorem map_datum (h : List.Forall₂ WritesField fields lines) :
    lines.map (fun l => (l.key.name, l.value.toDatum)) = fields := by
  induction h with
  | nil => rfl
  | cons hl _ ih => rw [List.map_cons, ih, hl.key_name, hl.datum]

theorem map_key_name (h : List.Forall₂ WritesField fields lines) :
    lines.map (·.key.name) = fields.map (·.1) := by
  rw [← map_datum h, List.map_map]
  rfl

theorem textOf_noReturn (h : ∀ l ∈ lines, ∃ field, WritesField field l) :
    '\r' ∉ (textOf (lines.map .assign)).toList := by
  induction lines with
  | nil => simp [textOf]
  | cons l lines ih =>
    obtain ⟨⟨field, hfield⟩, hrest⟩ := List.forall_mem_cons.mp h
    have hname : '\r' ∉ field.1.toList := hfield.name.spelled.written.noReturn
    rw [List.map_cons, textOf, Statement.text, hfield.text_eq]
    simpa using ⟨hname, hfield.noReturn, ih hrest⟩

/-- Fields are written on their lines. -/
theorem valueLines_eq_textOf (h : List.Forall₂ WritesField fields lines) :
    valueLines fields = textOf (lines.map .assign) := by
  rw [valueLines, ← @String.empty_append (textOf _)]
  -- the lines come after whatever is written before them
  generalize "" = out
  induction h generalizing out with
  | nil => simp [textOf]
  | @cons field l fields lines hl _ ih =>
    rw [List.foldl_cons, ih, List.map_cons, textOf, Statement.text, hl.text_eq]
    simp only [hl.text, String.append_assoc]

/-! ## Fields that can be written -/

section Writable

variable {name : String} (hname : (Key.plain name).Within)
include hname

theorem writesField_boolean (b : Bool) : ∃ l, WritesField (name, .bool b) l := by
  refine ⟨fieldLine name (if b then "true" else "false") (.boolean b), hname, rfl, rfl,
    writes_boolean b, ?_, rfl⟩
  cases b
  · exact (by decide : '\r' ∉ "false".toList)
  · exact (by decide : '\r' ∉ "true".toList)

theorem writesField_integer {n : Nat} (hn : n < Width.capacity 64) :
    ∃ l, WritesField (name, .integer n) l := by
  refine ⟨fieldLine name (Decimal.intText n) (.integer n), hname, rfl, rfl, writes_integer n,
    ?_, ?_⟩
  · intro hmem
    rw [fieldLine, toList_intText] at hmem
    exact absurd (Nat.isDigit_of_mem_toDigits (by omega) (by omega) hmem) (by decide)
  · have hsigned : Width.signed 128 n = true := by
      have hcapacity : Width.capacity 64 ≤ Width.capacity 127 := by decide
      rw [Width.signed, decide_eq_true_iff]
      change -(Width.capacity 127 : Int) ≤ n ∧ (n : Int) < Width.capacity 127
      omega
    change Value.integerDatum n = _
    rw [Value.integerDatum, hsigned]
    rfl

theorem writesField_text {s : String} (hne : s.toList ≠ [])
    (hs : s.toList.all isQuotable = true) : ∃ l, WritesField (name, .text s) l := by
  refine ⟨fieldLine name (quotedText s) (.string s), hname, rfl, rfl, writes_quoted hne hs, ?_, rfl⟩
  have hreturn : '\r' ∉ s.toList := fun hmem =>
    ne_return_of_isTextChar (isQuotable_iff.mp (List.all_eq_true.mp hs _ hmem)).1 rfl
  simpa [quotedText, fieldLine] using hreturn

end Writable

/-! ## The table of some lines -/

/-- Lines with keys that have no dots make one value each. -/
theorem addLines_values (hpath : ∀ l ∈ lines, l.path = [])
    (hnodup : (lines.map (·.key.name)).Nodup) {entries : Entries}
    (hfresh : ∀ l ∈ lines, find? entries l.key.name = none) :
    addLines lines entries = some (entries ++ lines.map fun l => (l.key, l.item)) := by
  induction lines generalizing entries with
  | nil => simp
  | cons l lines ih =>
    obtain ⟨hl, hpath⟩ := List.forall_mem_cons.mp hpath
    obtain ⟨hfresh, hrest⟩ := List.forall_mem_cons.mp hfresh
    rw [List.map_cons, List.nodup_cons] at hnodup
    have hadd : l.add entries = some (entries ++ [(l.key, l.item)]) := by
      rw [Line.add, addStrictly, hl]
      simp [alongDotted, Entries.addDotted, Entries.add, hfresh]
    rw [addLines_cons, hadd, Option.bind_some, ih hpath hnodup.2]
    · simp
    · intro other hother
      have hne : l.key.name ≠ other.key.name := fun heq =>
        hnodup.1 (List.mem_map.mpr ⟨other, hother, heq.symm⟩)
      rw [find?_append, hrest other hother, find?_singleton_of_ne hne]
      rfl

/-- Without headers the lines make a tree. -/
theorem lineTree_of_takeAllStrictly {ss : List Statement} {p : Progress}
    (h : Progress.takeAllStrictly {} ss = some p) (hnone : (outline 0 ss).2 = []) :
    LineTree (Entries.respell .plainKeys p.entries) := by
  have hbuild := takeAllStrictly_eq {} ss
  have hrun := build_respell .plainKeys (outline 0 ss).1 (outline 0 ss).2
  rw [h, Option.map_some] at hbuild
  rw [← hbuild, hnone, Option.map_some, List.map_nil, addUnder_eq_addLines] at hrun
  have hlines : addLines ((outline 0 ss).1.map (Line.respell .plainKeys)) [] =
      some (Entries.respell .plainKeys p.entries) := by
    cases hadd : addLines ((outline 0 ss).1.map (Line.respell .plainKeys)) [] with
    | none => simp [hadd] at hrun
    | some entries => simpa [hadd] using hrun
  obtain ⟨more, heq, htree, -⟩ := addLines_eq
    (List.forall_mem_map.mpr fun l _ => l.plain_respell) lineFree_nil hlines
  rwa [heq, List.nil_append]

/-! ## Reading fields again -/

/-- Statements that are written are read again. What they build is the same up to spelling. -/
theorem exists_read {ss : List Statement} (h : ∀ s ∈ ss, s.Spelled)
    (hreturn : '\r' ∉ (textOf ss).toList) {entries : Entries}
    (hbuild : (addUnder [] ((outline 0 ss).1.map (Line.respell .bare)) []).bind
      (applyAll ((outline 0 ss).2.map (Passage.respell .bare))) = some entries) :
    ∃ ss' p, statements? (textOf ss) = some (ss', "") ∧
      Progress.takeAllStrictly {} ss' = some p ∧ Entries.respell .bare p.entries = entries ∧
      (outline 0 ss').2.map (Passage.respell .bare) =
        (outline 0 ss).2.map (Passage.respell .bare) := by
  obtain ⟨ss', hagain, hss'⟩ := statements?_textOf h "" .nil
  rw [String.append_empty, clean_eq_self hreturn, String.ofList_toList] at hss'
  -- what is read differs from what was written in its spelling only
  have hbare := outline_respell 0 ss
  rw [← respell_of_again hagain, (outline_respell 0 ss').1, (outline_respell 0 ss').2] at hbare
  rw [← hbare.1, ← hbare.2, build_respell] at hbuild
  have htake := takeAllStrictly_eq {} ss'
  change _ = (addUnder [] (outline 0 ss').1 []).bind (applyAll (outline 0 ss').2) at htake
  rw [← htake, Option.map_map] at hbuild
  obtain ⟨p, hp, hentries⟩ := Option.map_eq_some_iff.mp hbuild
  exact ⟨ss', p, hss', hp, hentries, hbare.2⟩

/-- What the lines of a table say, in the plainest spelling. -/
def bareLines (lines : List Line) : Entries :=
  lines.map fun l => (Key.plain l.key.name, Item.value "" "" "" l.value)

/-- The lines of fields make one value each. -/
theorem addLines_fields (h : List.Forall₂ WritesField fields lines)
    (hnodup : (fields.map (·.1)).Nodup) :
    addLines (lines.map (Line.respell .bare)) [] = some (bareLines lines) := by
  have hpath : ∀ l ∈ lines.map (Line.respell .bare), l.path = [] :=
    List.forall_mem_map.mpr fun l hl => by
      obtain ⟨field, -, hfield⟩ := exists_field h hl
      rw [Line.respell, hfield.path_eq, List.map_nil]
  have hnames : ((lines.map (Line.respell .bare)).map (·.key.name)).Nodup := by
    rw [List.map_map]
    change (lines.map (·.key.name)).Nodup
    rwa [map_key_name h]
  rw [addLines_values hpath hnames fun _ _ => rfl, List.nil_append, List.map_map]
  rfl

theorem spelled_assign (h : List.Forall₂ WritesField fields lines) :
    ∀ s ∈ lines.map Statement.assign, s.Spelled := by
  refine List.forall_mem_map.mpr fun l hl => ?_
  obtain ⟨field, -, hfield⟩ := exists_field h hl
  exact hfield.spelled

/-- Fields that are written are read again as a table that says the same. -/
theorem exists_valueLines (h : List.Forall₂ WritesField fields lines)
    (hnodup : (fields.map (·.1)).Nodup) :
    ∃ d, parseStrictly? (valueLines fields) = some d ∧
      Entries.respell .bare d.entries = bareLines lines ∧
      LineTree (Entries.respell .plainKeys d.entries) ∧ d.entries.Spelled := by
  have hreturn := textOf_noReturn fun l hl => (exists_field h hl).imp fun _ hfield => hfield.2
  have houtline : outline 0 (lines.map Statement.assign) = (lines, []) := by
    simpa [outline] using outline_assign_append 0 lines []
  have hbuild : (addUnder [] ((outline 0 (lines.map Statement.assign)).1.map
      (Line.respell .bare)) []).bind (applyAll ((outline 0 (lines.map Statement.assign)).2.map
        (Passage.respell .bare))) = some (bareLines lines) := by
    rw [houtline, addUnder_eq_addLines, addLines_fields h hnodup]
    rfl
  obtain ⟨ss, p, hss, hp, hentries, hnone⟩ := exists_read (spelled_assign h) hreturn hbuild
  rw [← valueLines_eq_textOf h] at hss
  rw [houtline] at hnone
  have hstart : Progress.Spelled {} := ⟨.nil, by simp⟩
  refine ⟨⟨p.entries, ""⟩, ?_, hentries, ?_, ?_⟩
  · rw [parseStrictly?, hss, Option.bind_some]
    simp only [hp, Option.map_some]
  · exact lineTree_of_takeAllStrictly hp (List.map_eq_nil_iff.mp hnone)
  · exact (hstart.takeAllStrictly (statements?_spelled hss).1 hp).entries

end VideoSync.Toml
