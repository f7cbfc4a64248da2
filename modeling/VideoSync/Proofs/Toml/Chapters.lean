import VideoSync.Proofs.Toml.Fields
import VideoSync.Proofs.Toml.Meaning

/-
  Texts in chapters. A chapter is a header with fields on the lines below it, and blanks and
  comments before it. A text of chapters with different names is read as one table for each of them,
  which holds what the fields say: `exists_chapters`.
-/

namespace VideoSync.Toml

open Item Entries Document

/-- A table to be written: the text before its header, its name and its lines. -/
structure Chapter where
  before : String
  name : String
  lines : List Line

namespace Chapter

/-- The header and the lines below it. -/
def statements (c : Chapter) : List Statement :=
  .header false [] (.plain c.name) c.before "" :: c.lines.map .assign

/-- The table that is read, in the plainest spelling. -/
def entry (c : Chapter) : Key × Item := (.plain c.name, .table {} (bareLines c.lines))

/-- The chapter as it builds its table, in the plainest spelling. -/
def passage (c : Chapter) : Passage :=
  ⟨false, [], .plain c.name, {}, c.lines.map (Line.respell .bare)⟩

end Chapter

/-- A chapter is written for fields: only blanks and comments come before it, and no name stands in
it twice. -/
structure WritesTable (fields : List (String × Datum)) (c : Chapter) : Prop where
  name : (Key.plain c.name).Within
  before : Leading c.before.toList
  noReturn : '\r' ∉ c.before.toList
  lines : List.Forall₂ WritesField fields c.lines
  nodup : (fields.map (·.1)).Nodup

variable {fields : List (String × Datum)} {lines : List Line} {c : Chapter}
  {chapters : List Chapter}

theorem entriesToValues_bareLines (lines : List Line) :
    entriesToValues (bareLines lines) = lines.map fun l => (l.key.name, l.value) := by
  rw [entriesToValues_eq, bareLines, List.map_map]
  rfl

/-- The lines of fields say what the fields say. -/
theorem entriesToData_bareLines (h : List.Forall₂ WritesField fields lines) :
    Value.entriesToData (entriesToValues (bareLines lines)) = fields := by
  rw [entriesToValues_bareLines, Value.entriesToData_eq, List.map_map]
  exact map_datum h

/-- What comes before a bracket on its own line may come before any statement. -/
theorem leading_of_bracket {g : List Char} (h : trivia (g ++ ['[']) = ['[']) : Leading g := by
  have hleading := leading_of_trivia h (by decide)
  rwa [h, taken_append, String.toList_ofList] at hleading

namespace WritesTable

theorem spelled (h : WritesTable fields c) : ∀ s ∈ c.statements, s.Spelled := by
  refine List.forall_mem_cons.mpr ⟨⟨?_, h.before, .of_blanks blanks_empty⟩, spelled_assign h.lines⟩
  simpa using h.name

theorem noReturn_text (h : WritesTable fields c) : '\r' ∉ (textOf c.statements).toList := by
  have hlines := textOf_noReturn fun l hl => (exists_field h.lines hl).imp fun _ hfield => hfield.2
  have hname : '\r' ∉ c.name.toList := h.name.spelled.written.noReturn
  have hbefore := h.noReturn
  rw [Chapter.statements, textOf, Statement.text]
  simpa [keyText, keyText.between, Key.plain] using ⟨hbefore, hname, hlines⟩

/-- A chapter with a new name adds its table. -/
theorem apply_passage (h : WritesTable fields c) {entries : Entries}
    (hfresh : find? entries c.name = none) :
    c.passage.apply entries = some (entries ++ [c.entry]) := by
  have hopen : Entries.descend c.passage.opening [] entries =
      some (entries ++ [(.plain c.name, .table {} [])]) := by
    have hnone : find? entries (Key.plain c.name).name = none := hfresh
    simp [Chapter.passage, Passage.opening, openTable, hnone]
  have hunder : addUnder [.plain c.name] (c.lines.map (Line.respell .bare))
      (entries ++ [(.plain c.name, .table {} [])]) = some (entries ++ [c.entry]) := by
    rw [addUnder_table hfresh find?_nil, addLines_fields h.lines h.nodup]
    rfl
  rw [Passage.apply, Chapter.passage]
  exact (congrArg (Option.bind · _) hopen).trans hunder

end WritesTable

/-! ## Texts of chapters -/

/-- The chapters are the passages of their text, whatever came before. -/
theorem outline_chapters (headers : Nat) (chapters : List Chapter) :
    (outline headers (chapters.flatMap Chapter.statements)).1 = [] ∧
      (outline headers (chapters.flatMap Chapter.statements)).2.map (Passage.respell .bare) =
        chapters.map Chapter.passage := by
  induction chapters generalizing headers with
  | nil => exact ⟨rfl, rfl⟩
  | cons c rest ih =>
    obtain ⟨hlines, hpassages⟩ := ih (headers + 1)
    rw [List.flatMap_cons, Chapter.statements, List.cons_append, outline, outline_assign_append,
      hlines, List.append_nil]
    refine ⟨rfl, ?_⟩
    rw [List.map_cons, List.map_cons, hpassages]
    rfl

theorem applyAll_chapters (h : ∀ c ∈ chapters, ∃ fields, WritesTable fields c)
    (hnodup : (chapters.map (·.name)).Nodup) {entries : Entries}
    (hfresh : ∀ c ∈ chapters, find? entries c.name = none) :
    applyAll (chapters.map Chapter.passage) entries =
      some (entries ++ chapters.map Chapter.entry) := by
  induction chapters generalizing entries with
  | nil => simp
  | cons c rest ih =>
    obtain ⟨⟨fields, hc⟩, hrest⟩ := List.forall_mem_cons.mp h
    obtain ⟨hfresh, hfresh_rest⟩ := List.forall_mem_cons.mp hfresh
    rw [List.map_cons, List.nodup_cons] at hnodup
    rw [List.map_cons, applyAll_cons, hc.apply_passage hfresh, Option.bind_some,
      ih hrest hnodup.2, List.append_assoc]
    · rfl
    · intro other hother
      have hne : c.name ≠ other.name := fun heq =>
        hnodup.1 (List.mem_map.mpr ⟨other, hother, heq.symm⟩)
      rw [find?_append, hfresh_rest other hother]
      exact find?_singleton_of_ne hne

/-- A text of chapters is read as their tables. -/
theorem exists_chapters (h : ∀ c ∈ chapters, ∃ fields, WritesTable fields c)
    (hnodup : (chapters.map (·.name)).Nodup) :
    ∃ d, parseStrictly? (textOf (chapters.flatMap Chapter.statements)) = some d ∧
      Entries.respell .bare d.entries = chapters.map Chapter.entry := by
  have hspelled : ∀ s ∈ chapters.flatMap Chapter.statements, s.Spelled := by
    intro s hs
    obtain ⟨c, hc, hs⟩ := List.mem_flatMap.mp hs
    exact (h c hc).choose_spec.spelled s hs
  have hreturn : '\r' ∉ (textOf (chapters.flatMap Chapter.statements)).toList := by
    clear hnodup hspelled
    induction chapters with
    | nil => simp [textOf]
    | cons c rest ih =>
      obtain ⟨⟨fields, hc⟩, hrest⟩ := List.forall_mem_cons.mp h
      rw [List.flatMap_cons, textOf_append, String.toList_append, List.mem_append]
      exact not_or.mpr ⟨hc.noReturn_text, ih hrest⟩
  have hbuild : (addUnder [] ((outline 0 (chapters.flatMap Chapter.statements)).1.map
      (Line.respell .bare)) []).bind (applyAll
        ((outline 0 (chapters.flatMap Chapter.statements)).2.map (Passage.respell .bare))) =
      some (chapters.map Chapter.entry) := by
    rw [(outline_chapters 0 chapters).1, (outline_chapters 0 chapters).2]
    exact applyAll_chapters h hnodup fun _ _ => rfl
  obtain ⟨ss, p, hss, hp, hentries, -⟩ := exists_read hspelled hreturn hbuild
  refine ⟨⟨p.entries, ""⟩, ?_, hentries⟩
  rw [parseStrictly?, hss, Option.bind_some]
  simp only [hp, Option.map_some]

end VideoSync.Toml
