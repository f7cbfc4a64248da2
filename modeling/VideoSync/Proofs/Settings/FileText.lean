import VideoSync.Proofs.Settings.Sections

/-
  The text of a whole settings file. It is read as a document that has the tables of both sections
  and nothing else, each with all fields of the section (`exists_fileText`). Such a document gives
  the settings that the text was generated for and is in the normal form, a table for each section
  with all of its settings and nothing else at the top (`Settings.Normal`), so that nothing writes
  it anew. It can be edited exactly if the timeout, which has 64 bits without a sign, also is a
  number of 64 bits with a sign: `Fills.editable_iff`.
-/

namespace VideoSync

open VideoSync.Toml Item Entries

/-! ## Values that fit -/

namespace Toml.Value

variable {v : Value}

theorem toDatum_integer (n : Int) :
    (integer n).toDatum = .integer n ∨ (integer n).toDatum = .unreadable := by
  rw [toDatum, integerDatum]
  split
  · exact .inl rfl
  · exact .inr rfl

/-- Only an integer says what an integer says. -/
theorem eq_integer {n : Int} (h : v.toDatum = .integer n) : v = .integer n := by
  cases v with
  | integer m =>
    rcases toDatum_integer m with hm | hm
    · rw [hm] at h
      cases h
      rfl
    · rw [hm] at h
      cases h
  | _ => cases h

/-- What is neither a number nor a collection fits. -/
theorem fits_of_text {text : String} (h : v.toDatum = .text text) : v.fits = true := by
  cases v with
  | integer m => rcases toDatum_integer m with hm | hm <;> rw [hm] at h <;> cases h
  | string => rfl
  | _ => cases h

theorem fits_of_bool {b : Bool} (h : v.toDatum = .bool b) : v.fits = true := by
  cases v with
  | integer m => rcases toDatum_integer m with hm | hm <;> rw [hm] at h <;> cases h
  | boolean => rfl
  | _ => cases h

theorem entriesFit_iff {entries : List (String × Value)} :
    entriesFit entries = true ↔ ∀ e ∈ entries, e.2.fits = true := by
  induction entries with
  | nil => simp [entriesFit]
  | cons e rest ih => rw [entriesFit, Bool.and_eq_true, ih, List.forall_mem_cons]

theorem allFit_iff {items : List Value} :
    allFit items = true ↔ ∀ v ∈ items, v.fits = true := by
  induction items with
  | nil => simp [allFit]
  | cons v rest ih => rw [allFit, Bool.and_eq_true, ih, List.forall_mem_cons]

end Toml.Value

namespace Settings

/-! ## Chapters of settings -/

/-- The text before the header of a section. -/
def preface : Section → String
  | .sync => heading ++ "\n" ++ comment .sync ++ "\n"
  | .logging => "\n" ++ comment .logging ++ "\n"

theorem leading_preface (sec : Section) : Leading (preface sec).toList := by
  refine leading_of_bracket ?_
  cases sec <;> decide +kernel

theorem noReturn_preface (sec : Section) : '\r' ∉ (preface sec).toList := by
  cases sec <;> decide +kernel

/-- A section as a chapter. -/
def chapter (sec : Section) (lines : List Line) : Chapter := ⟨preface sec, sec.tableName, lines⟩

variable {s : Settings} {lines : Section → List Line}

theorem writesTable_chapter (h : ∀ sec, List.Forall₂ WritesField (s.sectionFields sec) (lines sec))
    (sec : Section) : WritesTable (s.sectionFields sec) (chapter sec (lines sec)) :=
  ⟨sec.within_tableName, leading_preface sec, noReturn_preface sec, h sec,
    s.nodup_sectionFields sec⟩

/-- A settings file is the text of its chapters. -/
theorem fileText_eq (h : ∀ sec, List.Forall₂ WritesField (s.sectionFields sec) (lines sec)) :
    s.fileText = textOf
      ((Section.all.map fun sec => chapter sec (lines sec)).flatMap Chapter.statements) := by
  have hchapter (sec : Section) : textOf (chapter sec (lines sec)).statements =
      preface sec ++ "[" ++ sec.tableName ++ "]\n" ++ s.sectionText sec := by
    rw [sectionText, valueLines_eq_textOf (h sec)]
    simp [Chapter.statements, chapter, textOf, Statement.text, Document.keyText,
      Document.keyText.between, Key.plain, String.append_assoc]
  have hbracket : "\n[" = "\n" ++ "[" := rfl
  simp only [Section.all, List.map_cons, List.map_nil, List.flatMap_cons, List.flatMap_nil,
    textOf_append, hchapter, textOf, fileText, List.foldl_cons, List.foldl_nil, preface,
    String.append_assoc, String.append_empty]
  rw [hbracket]
  simp only [String.append_assoc]

/-! ## Lines of sections -/

/-- The fields of a section are all its settings. -/
theorem names_sectionFields (s : Settings) (sec : Section) :
    (s.sectionFields sec).map (·.1) = sec.names := by
  cases sec <;> rfl

theorem names_bareLines (ls : List Line) :
    (bareLines ls).map (·.1.name) = ls.map (·.key.name) := List.map_map

/-- What is written for a timeout fits if it is a number with a sign. -/
theorem fits_timeout_iff {n : UInt64} {v : Value} (h : v.toDatum = .integer n.toNat) :
    v.fits = true ↔ n.toNat < Width.capacity 63 := by
  rw [Value.eq_integer h, Value.fits, Width.signed, decide_eq_true_iff]
  change -(Width.capacity 63 : Int) ≤ n.toNat ∧ (n.toNat : Int) < Width.capacity 63 ↔ _
  omega

theorem fits_sync_iff {ls : List Line} (h : List.Forall₂ WritesField s.sync.toFields ls) :
    (∀ l ∈ ls, l.value.fits = true) ↔ s.sync.metadataTimeout.toNat < Width.capacity 63 := by
  unfold SyncSettings.toFields at h
  cases h with
  | cons hpolicy h => cases h with
    | cons htimeout h => cases h with
      | cons hseek h =>
        cases h
        simp [Value.fits_of_text hpolicy.datum, fits_timeout_iff htimeout.datum,
          Value.fits_of_bool hseek.datum]

theorem fits_logging {ls : List Line} (h : List.Forall₂ WritesField s.logging.toFields ls) :
    ∀ l ∈ ls, l.value.fits = true := by
  intro l hl
  obtain ⟨field, hmem, hfield⟩ := exists_field h hl
  obtain rfl := List.mem_singleton.mp hmem
  exact Value.fits_of_text hfield.datum

/-! ## The normal form -/

variable {d : Document}

/-- A document in its normal form: the sections are all that stands at the top, and each of them is
a table, and no value, with all of its settings. -/
structure Normal (d : Document) : Prop where
  names : (d.entries.map (·.1.name)).Perm names
  tables : ∀ sec : Section, ∃ head entries,
    find? d.entries sec.tableName = some (.table head entries) ∧
      ∀ name ∈ sec.names, name ∈ entries.map (·.1.name)

theorem isComplete_iff {sec : Section} : isComplete d sec = true ↔
    ∃ head entries, find? d.entries sec.tableName = some (.table head entries) ∧
      ∀ name ∈ sec.names, name ∈ entries.map (·.1.name) := by
  unfold isComplete
  cases hfind : find? d.entries sec.tableName with
  | none => simp
  | some item =>
    cases item with
    | table head entries => simp [isSome_find?, -List.mem_map]
    | _ => simp

theorem length_le_one_of_readSection {α : Type} {fallback a : α} {read : Datum → Option α}
    {data : List Datum} (h : readSection fallback read data = some a) : data.length ≤ 1 := by
  rcases data with _ | ⟨datum, _ | ⟨other, rest⟩⟩
  · exact Nat.zero_le 1
  · exact Nat.le_refl 1
  · contradiction

/-- Settings are read from a document only if no section stands in it twice. -/
theorem count_le_one (h : ofDocument? d = some s) (sec : Section) :
    (d.entries.map (·.1.name)).count sec.tableName ≤ 1 := by
  have hcount : (d.entries.map (·.1.name)).count sec.tableName =
      ((d.under sec.tableName).map Value.toDatum).length := by
    rw [List.count, List.countP_map, List.countP_eq_length_filter, List.length_map,
      Document.under, List.length_map]
    rfl
  obtain ⟨-, hsync, hlogging⟩ := ofDocument?_eq_some.mp h
  rw [hcount]
  cases sec with
  | sync => exact length_le_one_of_readSection hsync
  | logging => exact length_le_one_of_readSection hlogging

/-- A document that gives settings passes for normal exactly if it is in its normal form. -/
theorem isNormal_iff (h : ofDocument? d = some s) : isNormal d = true ↔ Normal d := by
  rw [isNormal, Bool.and_eq_true, List.all_eq_true, List.all_eq_true]
  constructor
  · rintro ⟨hnames, hcomplete⟩
    have htables (sec : Section) := isComplete_iff.mp (hcomplete sec (by cases sec <;> decide))
    have hmem : ∀ name ∈ d.entries.map (·.1.name), name ∈ names :=
      List.forall_mem_map.mpr fun e he => List.contains_iff_mem.mp (hnames e he)
    have hnodup : (d.entries.map (·.1.name)).Nodup := by
      rw [List.nodup_iff_count_le_one]
      intro name
      by_cases hname : name ∈ names
      · obtain ⟨sec, rfl⟩ := mem_names.mp hname
        exact count_le_one h sec
      · rw [List.count_eq_zero_of_not_mem fun hin => hname (hmem name hin)]
        exact Nat.zero_le 1
    have hperm := List.perm_ext_iff_of_nodup hnodup (by decide : names.Nodup)
    refine ⟨hperm.mpr fun name => ⟨hmem name, fun hname => ?_⟩, htables⟩
    obtain ⟨sec, rfl⟩ := mem_names.mp hname
    obtain ⟨head, entries, hfind, -⟩ := htables sec
    rw [← isSome_find?, hfind]
    rfl
  · rintro ⟨hnames, htables⟩
    refine ⟨fun e he => ?_, fun sec _ => isComplete_iff.mpr (htables sec)⟩
    exact List.contains_iff_mem.mpr (hnames.mem_iff.mp (List.mem_map.mpr ⟨e, he, rfl⟩))

/-! ## Documents of settings -/

/-- A document that has the tables of all sections with all their fields, and nothing else. -/
def Fills (s : Settings) (d : Document) : Prop :=
  ∃ lines : Section → List Line,
    (∀ sec, List.Forall₂ WritesField (s.sectionFields sec) (lines sec)) ∧
      Entries.respell .bare d.entries =
        Section.all.map fun sec => (.plain sec.tableName, .table {} (bareLines (lines sec)))

/-- The text of settings is read as a document with just these settings. -/
theorem exists_fileText (s : Settings) :
    ∃ d, Document.parseStrictly? s.fileText = some d ∧ s.Fills d := by
  choose lines hlines using s.exists_lines
  have hnames : ((Section.all.map fun sec => chapter sec (lines sec)).map (·.name)).Nodup :=
    (by decide : ["sync", "logging"].Nodup)
  have hwrites : ∀ c ∈ Section.all.map fun sec => chapter sec (lines sec),
      ∃ fields, WritesTable fields c :=
    List.forall_mem_map.mpr fun sec _ => ⟨_, writesTable_chapter hlines sec⟩
  obtain ⟨d, hd, hentries⟩ := exists_chapters hwrites hnames
  rw [← fileText_eq hlines] at hd
  refine ⟨d, hd, lines, hlines, ?_⟩
  rw [hentries, List.map_map]
  rfl

namespace Fills

/-- Under the name of a section stand its fields. -/
theorem under (h : s.Fills d) (sec : Section) :
    (d.under sec.tableName).map Value.toDatum = [.fields (s.sectionFields sec)] := by
  obtain ⟨lines, hlines, hentries⟩ := h
  have hrestrict : restrict sec.tableName (Entries.respell .bare d.entries) =
      [(.plain sec.tableName, .table {} (bareLines (lines sec)))] := by
    rw [hentries]
    cases sec <;> rfl
  rw [Document.under_respell .bare, hrestrict, List.map_singleton, List.map_singleton, toValue,
    Value.toDatum, entriesToData_bareLines (hlines sec)]

theorem under_other (h : s.Fills d) {name : String}
    (hname : ∀ sec : Section, name ≠ sec.tableName) :
    d.under name = [] := by
  obtain ⟨lines, -, hentries⟩ := h
  have hrestrict : restrict name (Entries.respell .bare d.entries) = [] := by
    rw [hentries, restrict, List.filter_eq_nil_iff]
    refine List.forall_mem_map.mpr fun sec _ => ?_
    simpa [Key.plain] using (hname sec).symm
  rw [Document.under_respell .bare, hrestrict, List.map_nil]

theorem ofDocument? (h : s.Fills d) : ofDocument? d = some s := by
  refine ofDocument?_eq_some.mpr ⟨fun name hname v hv => ?_, ?_, ?_⟩
  · rw [h.under_other hname] at hv
    contradiction
  · rw [syncOf?, h.under]
    exact ofDatum?_syncFields s.sync
  · rw [loggingOf?, h.under]
    exact ofDatum?_loggingFields s.logging

theorem normal (h : s.Fills d) : Normal d := by
  obtain ⟨lines, hlines, hentries⟩ := h
  refine ⟨?_, fun sec => ?_⟩
  · rw [← map_name_respell .bare, hentries]
    exact .refl _
  · have hfind : (find? d.entries sec.tableName).map (Item.respell .bare) =
        some (.table {} (bareLines (lines sec))) := by
      rw [← find?_respell, hentries]
      cases sec <;> rfl
    obtain ⟨item, hitem, hrespell⟩ := Option.map_eq_some_iff.mp hfind
    cases item with
    | value => cases hrespell
    | tables => rw [respell_tables] at hrespell; cases hrespell
    | table head entries =>
      rw [respell_table] at hrespell
      have hnames : entries.map (·.1.name) = sec.names := by
        rw [← map_name_respell .bare, (Item.table.inj hrespell).2, names_bareLines,
          map_key_name (hlines sec), names_sectionFields]
      exact ⟨head, entries, hitem, fun name hname => hnames ▸ hname⟩

theorem isNormal (h : s.Fills d) : isNormal d = true := (isNormal_iff h.ofDocument?).mpr h.normal

/-- All that is written fits, except for a timeout that is no number with a sign. -/
theorem editable_iff (h : s.Fills d) :
    d.editable = true ↔ s.sync.metadataTimeout.toNat < Width.capacity 63 := by
  obtain ⟨lines, hlines, hentries⟩ := h
  have hvalues : d.toValue = .table (Section.all.map fun sec =>
      (sec.tableName, .table (entriesToValues (bareLines (lines sec))))) := by
    rw [Document.toValue, ← Entries.toValues_respell .bare, hentries, entriesToValues_eq,
      List.map_map]
    rfl
  have hsection (sec : Section) :
      Value.entriesFit (entriesToValues (bareLines (lines sec))) = true ↔
        ∀ l ∈ lines sec, l.value.fits = true := by
    rw [entriesToValues_bareLines, Value.entriesFit_iff, List.forall_mem_map]
  rw [Document.editable, hvalues, Value.fits, Value.entriesFit_iff, List.forall_mem_map]
  simp only [Value.fits, hsection]
  rw [← fits_sync_iff (hlines .sync)]
  refine ⟨fun h => h .sync (by decide), fun h sec _ => ?_⟩
  cases sec with
  | sync => exact h
  | logging => exact fits_logging (hlines .logging)

end Fills
end Settings
end VideoSync
