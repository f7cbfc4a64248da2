import VideoSync.Proofs.Toml.Chapters
import VideoSync.Settings.Text

/-
  Settings and their sections. The text of a section is read again as the settings that it was
  written for, and what a document gives for one section depends on nothing but what it has under
  the name of that section. So a document in which one section was replaced gives the settings that
  it gave before, with that section's settings in place of its own: `ofDocument?_replace`.
-/

namespace VideoSync

open VideoSync.Toml

/-! ## The text of a section -/

namespace Section

/-- The name of a section can stand in a header. -/
theorem within_tableName (sec : Section) : (Key.plain sec.tableName).Within := by
  cases sec <;> exact Document.within_plain (by decide) (by decide)

end Section

namespace Settings

/-- All fields of a section can be written on lines. -/
theorem exists_lines (s : Settings) (sec : Section) :
    ∃ lines, List.Forall₂ WritesField (s.sectionFields sec) lines := by
  cases sec with
  | sync =>
    obtain ⟨policy, hpolicy⟩ : ∃ l,
        WritesField ("overlap_policy", s.sync.overlapPolicy.toDatum) l := by
      have hname : (Key.plain "overlap_policy").Within :=
        Document.within_plain (by decide) (by decide)
      cases s.sync.overlapPolicy <;> exact writesField_text hname (by decide) (by decide)
    have htimeout_name : (Key.plain "metadata_timeout_ms").Within :=
      Document.within_plain (by decide) (by decide)
    have hseek_name : (Key.plain "seek_to_session_start").Within :=
      Document.within_plain (by decide) (by decide)
    obtain ⟨timeout, htimeout⟩ := writesField_integer htimeout_name s.sync.metadataTimeout.toNat_lt
    obtain ⟨seek, hseek⟩ := writesField_boolean hseek_name s.sync.seekToSessionStart
    exact ⟨[policy, timeout, seek], .cons hpolicy (.cons htimeout (.cons hseek .nil))⟩
  | logging =>
    obtain ⟨level, hlevel⟩ : ∃ l, WritesField ("level", s.logging.level.toDatum) l := by
      have hname : (Key.plain "level").Within := Document.within_plain (by decide) (by decide)
      cases s.logging.level <;> exact writesField_text hname (by decide) (by decide)
    exact ⟨[level], .cons hlevel .nil⟩

theorem nodup_sectionFields (s : Settings) (sec : Section) :
    ((s.sectionFields sec).map (·.1)).Nodup := by
  cases sec
  · exact (by decide : ["overlap_policy", "metadata_timeout_ms", "seek_to_session_start"].Nodup)
  · exact (by decide : ["level"].Nodup)

theorem parse?_of_editable? {text : String} {d : Document} (h : editable? text = some d) :
    Document.parse? text = some d := (Option.filter_eq_some_iff.mp h).1

/-- The table that is read from the text of a section. -/
structure TableOf (s : Settings) (sec : Section) (table : Document) : Prop where
  data : table.data = s.sectionFields sec
  lineTree : LineTree (Entries.respell .plainKeys table.entries)
  spelled : table.entries.Spelled

theorem tableOf_editable? {s : Settings} {sec : Section} {table : Document}
    (h : editable? (s.sectionText sec) = some table) : s.TableOf sec table := by
  obtain ⟨lines, hlines⟩ := s.exists_lines sec
  obtain ⟨d, hd, hentries, htree, hspelled⟩ := exists_valueLines hlines (s.nodup_sectionFields sec)
  have hparse := Document.parse?_of_parseStrictly? hd
  rw [← sectionText, parse?_of_editable? h] at hparse
  obtain rfl := Option.some.inj hparse
  refine ⟨?_, htree, hspelled⟩
  rw [Document.data, ← Entries.toValues_respell .bare, hentries, entriesToData_bareLines hlines]

/-! ## Reading a section -/

theorem ofDatum?_policy (p : OverlapPolicy) :
    OverlapPolicy.ofDatum? dialect p.toDatum = some p := by
  cases p <;> rfl

theorem uint64?_toNat (n : UInt64) : Datum.uint64? (.integer n.toNat) = some n := by
  have hn : (n.toNat : Int) < Width.capacity 64 := by exact_mod_cast n.toNat_lt
  rw [Datum.uint64?, Width.unsigned, decide_eq_true (by omega), if_pos rfl]
  simp

theorem ofDatum?_syncFields (s : SyncSettings) :
    SyncSettings.ofDatum? dialect (.fields s.toFields) = some s := by
  obtain ⟨policy, timeout, seek⟩ := s
  have hrecord : Datum.record? dialect SyncSettings.names
      (.fields (SyncSettings.toFields ⟨policy, timeout, seek⟩)) =
        some ⟨[some policy.toDatum, some (.integer timeout.toNat), some (.bool seek)], true⟩ := rfl
  rw [SyncSettings.ofDatum?, hrecord]
  simp [Fields.orDefault, Fields.at?, ofDatum?_policy, uint64?_toNat, Datum.bool?]

theorem ofDatum?_loggingFields (s : LoggingSettings) :
    LoggingSettings.ofDatum? dialect (.fields s.toFields) = some s := by
  obtain ⟨level⟩ := s
  cases level <;> rfl

/-- What stands under the name of a section gives its settings: nothing gives the defaults, and it
may stand there once. -/
def readSection {α : Type} (fallback : α) (read : Datum → Option α) : List Datum → Option α
  | [] => some fallback
  | [d] => read d
  | _ => none

/-- What a document gives for syncing. -/
def syncOf? (d : Document) : Option SyncSettings :=
  readSection {} (SyncSettings.ofDatum? dialect)
    ((d.under Section.sync.tableName).map Value.toDatum)

/-- What a document gives for logging. -/
def loggingOf? (d : Document) : Option LoggingSettings :=
  readSection {} (LoggingSettings.ofDatum? dialect)
    ((d.under Section.logging.tableName).map Value.toDatum)

/-- Whether all that stands under other names can be read. -/
def OthersReadable (d : Document) : Prop :=
  ∀ name, (∀ sec : Section, name ≠ sec.tableName) → ∀ v ∈ d.under name, v.toDatum.isReadable = true

theorem entriesReadable_iff (entries : List (String × Datum)) :
    Datum.entriesReadable entries = true ↔ ∀ e ∈ entries, e.2.isReadable = true := by
  induction entries with
  | nil => simp [Datum.entriesReadable]
  | cons e rest ih => simp [Datum.entriesReadable, ih]

theorem mem_names {name : String} : name ∈ names ↔ ∃ sec : Section, name = sec.tableName := by
  constructor
  · intro h
    obtain ⟨sec, -, rfl⟩ := List.mem_map.mp h
    exact ⟨sec, rfl⟩
  · rintro ⟨sec, rfl⟩
    cases sec <;> decide

theorem othersReadable_iff (d : Document) :
    Datum.entriesReadable (d.data.filter fun (name, _) => !names.contains name) = true ↔
      OthersReadable d := by
  rw [entriesReadable_iff]
  constructor
  · intro h name hname v hv
    refine h (name, v.toDatum) (List.mem_filter.mpr ⟨Document.mem_data.mpr ?_, ?_⟩)
    · exact List.mem_map_of_mem hv
    · have : name ∉ names := fun hmem => (mem_names.mp hmem).elim fun sec heq => hname sec heq
      simpa using this
  · rintro h ⟨name, datum⟩ hmem
    obtain ⟨hmem, hname⟩ := List.mem_filter.mp hmem
    obtain ⟨v, hv, rfl⟩ := List.mem_map.mp (Document.mem_data.mp hmem)
    refine h name (fun sec heq => ?_) v hv
    have : name ∉ names := by simpa using hname
    exact this (mem_names.mpr ⟨sec, heq⟩)

theorem single?_eq (d : Document) (name : String) :
    Datum.single? d.data name = match (d.under name).map Value.toDatum with
      | [] => some none
      | [datum] => some (some datum)
      | _ => none := by
  rw [← Document.data_filter, Datum.single?]
  generalize d.data.filter (fun e => e.1 == name) = found
  rcases found with _ | ⟨e, _ | ⟨other, rest⟩⟩ <;> rfl

/-- A document gives settings when each of its parts does. -/
theorem ofDocument?_eq_some {d : Document} {s : Settings} :
    ofDocument? d = some s ↔
      OthersReadable d ∧ syncOf? d = some s.sync ∧ loggingOf? d = some s.logging := by
  have hnames : names.mapM (Datum.single? d.data) =
      (Datum.single? d.data Section.sync.tableName).bind fun sync =>
        (Datum.single? d.data Section.logging.tableName).map fun logging => [sync, logging] := by
    simp only [names, Section.all, List.map_cons, List.map_nil, List.mapM_cons, List.mapM_nil]
    rcases Datum.single? d.data Section.sync.tableName with _ | sync <;>
      rcases Datum.single? d.data Section.logging.tableName with _ | logging <;> rfl
  have hstrict : dialect.unreadableIgnored = false := rfl
  obtain ⟨sync, logging⟩ := s
  rw [← othersReadable_iff, ofDocument?, Document.toDatum_eq, ofDatum?, Datum.record?, hnames,
    single?_eq, single?_eq, syncOf?, loggingOf?]
  cases Datum.entriesReadable (d.data.filter fun (name, _) => !names.contains name) with
  | false => simp [hstrict]
  | true =>
    rcases (d.under Section.sync.tableName).map Value.toDatum with _ | ⟨first, _ | ⟨_, _⟩⟩ <;>
      rcases (d.under Section.logging.tableName).map Value.toDatum with
        _ | ⟨second, _ | ⟨_, _⟩⟩ <;>
      simp [readSection, Fields.orDefault, Fields.at?, hstrict, Option.bind_eq_some_iff, and_comm]

/-- Settings with those of one section in other settings. -/
def withSection (s : Settings) (sec : Section) (other : Settings) : Settings :=
  match sec with
  | .sync => { s with sync := other.sync }
  | .logging => { s with logging := other.logging }

/-- A document that says of one section what some settings say, and of all else what another
document says, gives the settings of that document with the section in place of its own. -/
theorem ofDocument?_replace {d d' : Document} {s s' : Settings} {sec : Section}
    (hothers : ∀ name, name ≠ sec.tableName → d'.under name = d.under name)
    (hself : (d'.under sec.tableName).map Value.toDatum = [.fields (s'.sectionFields sec)])
    (hd : ofDocument? d = some s) : ofDocument? d' = some (s.withSection sec s') := by
  obtain ⟨hreadable, hsync, hlogging⟩ := ofDocument?_eq_some.mp hd
  have hreadable' : OthersReadable d' := fun name hname v hv => by
    rw [hothers name (hname sec)] at hv
    exact hreadable name hname v hv
  refine ofDocument?_eq_some.mpr ⟨hreadable', ?_⟩
  cases sec with
  | sync =>
    refine ⟨?_, ?_⟩
    · rw [syncOf?, hself, readSection]
      exact ofDatum?_syncFields s'.sync
    · rw [loggingOf?, hothers _ (by decide)]
      exact hlogging
  | logging =>
    refine ⟨?_, ?_⟩
    · rw [syncOf?, hothers _ (by decide)]
      exact hsync
    · rw [loggingOf?, hself, readSection]
      exact ofDatum?_loggingFields s'.logging

end Settings

end VideoSync
