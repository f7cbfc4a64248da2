import VideoSync.Proofs.Settings.Saving
import VideoSync.Proofs.Toml.Annotations

/-
  Updates of sections lose nothing. Stores that share a file update its sections one after the
  other, each from settings that may be long outdated. One update leaves a file that is read again,
  with the section as the store holds it and everything else as it was (`Ready.updateSection`); so
  after any number of updates each section is as it was held at its last update, and every other key
  of the file has the value that it had at first.

  Two things are asked of the file. Its dotted keys are used as they are meant, and where an updated
  section is a plain value only blanks stand before its key: the key is kept for the header of the
  new table, and a comment or a line break would end up between the brackets. `kept_iff` says that
  this second condition is exact, and `unreadable_of_commentedText` shows a file with such a
  comment.
-/

namespace VideoSync

open VideoSync.Storage (Disk)
open VideoSync.Toml (Document Key Item Entries Value)

/-- An update of a section by a store that holds some settings. -/
structure Update where
  settings : Settings
  sec : Section
  deriving DecidableEq

namespace Store

/-- Updates by stores on the same path, one after the other, that all succeed. -/
def updateAll (path : String) (updates : List Update) (d : Disk) : Option Disk :=
  updates.foldlM (fun d u =>
    let attempt := updateSection ⟨path, u.settings⟩ u.sec d
    if attempt.error = none then some attempt.disk else none) d

end Store

/-- The settings that were held when a section was last updated, or the first ones if it never
was. -/
def lastHeld (first : Settings) (updates : List Update) (sec : Section) : Settings :=
  (((updates.filter (·.sec == sec)).getLast?).map (·.settings)).getD first

/-! ## Files -/

/-- A file that is read strictly and gives settings. -/
structure Holds (path : String) (d : Disk) (document : Document) (settings : Settings) : Prop where
  file : d.tree.exists? path = true
  read : ∃ text, d.tree.readText path = .ok text ∧ Document.parseStrictly? text = some document
  gives : Settings.ofDocument? document = some settings

/-- The file before any update, with its text, its document and the settings that it gives. -/
inductive Begins (path : String) (d : Disk) : String → Document → Settings → Prop
  | absent (h : d.tree.exists? path = false) : Begins path d "" {} {}
  | empty (h : d.tree.exists? path = true) (hread : d.tree.readText path = .ok "") :
    Begins path d "" {} {}
  | accepted {text : String} {document : Document} {settings : Settings}
    (hload : Store.load ⟨path, {}⟩ d = { store := ⟨path, settings⟩, disk := d })
    (hread : d.tree.readText path = .ok text) (hparse : Document.parse? text = some document) :
    Begins path d text document settings

variable {path text : String} {d d' : Disk} {document : Document} {settings : Settings}

theorem parseStrictly?_empty : Document.parseStrictly? "" = some {} := rfl

theorem ofDocument?_empty : Settings.ofDocument? {} = some {} := rfl

theorem Holds.reads (h : Holds path d document settings) : Reads path d document settings where
  file := h.file
  read := h.read.imp fun _ hread => hread.imp_right Document.parse?_of_parseStrictly?
  gives := h.gives

/-- What a store loads from such a file. -/
theorem Holds.load (h : Holds path d document settings) (held : Settings) :
    Store.load ⟨path, held⟩ d = { store := ⟨path, settings⟩, disk := d } := h.reads.load held

/-- No file, or one that is read strictly and gives settings. -/
inductive Ready (path : String) (d : Disk) : Document → Settings → Prop
  | absent (h : d.tree.exists? path = false) : Ready path d {} {}
  | present {document : Document} {settings : Settings} (h : Holds path d document settings) :
    Ready path d document settings

theorem Begins.ready (h : Begins path d text document settings)
    (hstrict : Document.parseStrictly? text = some document) : Ready path d document settings := by
  cases h with
  | absent h => exact .absent h
  | empty h hread => exact .present ⟨h, ⟨"", hread, hstrict⟩, ofDocument?_empty⟩
  | accepted hload hread hparse =>
    rw [Store.load] at hload
    split at hload
    · cases congrArg Attempt.error hload
    · next hfile =>
      simp only [hread, hparse, Option.bind_some] at hload
      split at hload
      · cases congrArg Attempt.error hload
      · next found hfound =>
        obtain rfl : found = settings := congrArg (·.store.settings) hload
        exact .present ⟨by simpa using hfile, ⟨text, hread, hstrict⟩, hfound⟩

/-- What a store finds when it updates a section. -/
theorem Ready.current (h : Ready path d document settings) (held : Settings) :
    Store.current ⟨path, held⟩ d = .ok document ∨
      Store.current ⟨path, held⟩ d = .error .notEditable := by
  rw [Store.current]
  cases h with
  | absent hfile => simp [hfile]
  | present h =>
    obtain ⟨text, hread, hstrict⟩ := h.read
    simp only [h.file, hread, Bool.not_true, Bool.false_eq_true, if_false]
    by_cases hempty : text = ""
    · rw [hempty, parseStrictly?_empty] at hstrict
      cases hstrict
      exact .inl (if_pos hempty)
    · rw [if_neg hempty, Settings.editable?, Document.parse?_of_parseStrictly? hstrict]
      cases hfits : document.editable
      · exact .inr (by simp [Option.filter, hfits])
      · exact .inl (by simp [Option.filter, hfits])

/-- The text that the document was read from, which is empty where there is no file. -/
theorem Ready.exists_text (h : Ready path d document settings) :
    (∃ text, Document.parseStrictly? text = some document) ∧
      Settings.ofDocument? document = some settings := by
  cases h with
  | absent => exact ⟨⟨"", parseStrictly?_empty⟩, ofDocument?_empty⟩
  | present h =>
    obtain ⟨text, -, hstrict⟩ := h.read
    exact ⟨⟨text, hstrict⟩, h.gives⟩

/-! ## One update -/

/-- A file that is no document. -/
structure Unreadable (path : String) (d : Disk) : Prop where
  file : d.tree.exists? path = true
  read : ∃ text, d.tree.readText path = .ok text ∧ Document.parse? text = none

theorem Unreadable.load (h : Unreadable path d) (held : Settings) :
    (Store.load ⟨path, held⟩ d).error = some .unreadable := by
  obtain ⟨text, hread, hnone⟩ := h.read
  simp only [Store.load, h.file, hread, hnone, Option.bind_none]
  rfl

/-- No section of such a file is updated. -/
theorem Unreadable.updateSection (h : Unreadable path d) (held : Settings) (sec : Section) :
    (Store.updateSection ⟨path, held⟩ sec d).error = some .notEditable := by
  obtain ⟨text, hread, hnone⟩ := h.read
  have hne : text ≠ "" := by
    rintro rfl
    contradiction
  have hcurrent : Store.current ⟨path, held⟩ d = .error .notEditable := by
    simp only [Store.current, h.file, hread, Settings.editable?, hnone, hne]
    rfl
  rw [Store.updateSection, hcurrent]

/-- What an update that succeeds writes. -/
theorem Ready.exists_written (h : Ready path d document settings) {held : Settings} {sec : Section}
    (hok : (Store.updateSection ⟨path, held⟩ sec d).error = none) :
    ∃ table, held.TableOf sec table ∧
      (Store.updateSection ⟨path, held⟩ sec d).disk.tree.exists? path = true ∧
      (Store.updateSection ⟨path, held⟩ sec d).disk.tree.readText path =
        .ok (Settings.putSection document sec table.entries).render := by
  rw [Store.updateSection] at hok ⊢
  rcases h.current held with hcurrent | hcurrent
  case inr => simp [hcurrent] at hok
  simp only [hcurrent] at hok ⊢
  cases htable : Settings.editable? (held.sectionText sec) with
  | none => simp [htable] at hok
  | some table =>
    simp only [htable] at hok ⊢
    rw [Store.write] at hok ⊢
    rcases hreplace : d.replace path
      (Text.encode (Settings.putSection document sec table.entries).render) with ⟨disk, failure⟩
    simp only [hreplace, Option.map_eq_none_iff] at hok ⊢
    subst hok
    exact ⟨table, Settings.tableOf_editable? htable, Storage.Disk.readText_of_replace hreplace⟩

/-- After an update that succeeds the file is read again. The section is as the store holds it, and
under every other name stands what stood there. -/
theorem Ready.updateSection (h : Ready path d document settings) {held : Settings} {sec : Section}
    (hfree : document.Unannotated sec.tableName)
    (hok : (Store.updateSection ⟨path, held⟩ sec d).error = none) :
    ∃ document', Holds path (Store.updateSection ⟨path, held⟩ sec d).disk document'
        (settings.withSection sec held) ∧
      (∀ name, name ≠ sec.tableName → document'.under name = document.under name) ∧
      ∀ name, document'.Unannotated name ↔ document.Unannotated name := by
  obtain ⟨⟨text, htext⟩, hgives⟩ := h.exists_text
  obtain ⟨table, htable, hfile, hread⟩ := h.exists_written hok
  obtain ⟨document', hparse, hothers, hself, hfree'⟩ := Document.parseStrictly?_put htext
    sec.within_tableName hfree htable.lineTree htable.spelled
  have hunder (name : String) (hname : name ≠ sec.tableName) :
      document'.under name = document.under name := Document.under_eq (hothers name hname)
  have hdata : (document'.under sec.tableName).map Value.toDatum =
      [.fields (held.sectionFields sec)] := by
    rw [Document.under_eq_table hself, List.map_singleton, Value.toDatum, ← htable.data]
    rfl
  exact ⟨document', ⟨hfile, ⟨_, hread, hparse⟩, Settings.ofDocument?_replace hunder hdata hgives⟩,
    hunder, hfree'⟩

/-- An update of a plain value with a comment or a line break before its key spoils the file. -/
theorem Ready.unreadable (h : Ready path d document settings) {held : Settings} {sec : Section}
    (hannotated : ¬ document.Unannotated sec.tableName)
    (hok : (Store.updateSection ⟨path, held⟩ sec d).error = none) :
    Unreadable path (Store.updateSection ⟨path, held⟩ sec d).disk := by
  obtain ⟨⟨text, htext⟩, -⟩ := h.exists_text
  obtain ⟨table, htable, hfile, hread⟩ := h.exists_written hok
  exact ⟨hfile, _, hread, Document.parse?_put_eq_none htext hannotated htable.lineTree⟩

/-! ## Any number of updates -/

/-- The settings after updates: each update replaces its section. -/
def settingsAfter (first : Settings) (updates : List Update) : Settings :=
  updates.foldl (fun s u => s.withSection u.sec u.settings) first

theorem lastHeld_cons (first : Settings) (u : Update) (rest : List Update) (sec : Section) :
    lastHeld first (u :: rest) sec =
      lastHeld (if u.sec = sec then u.settings else first) rest sec := by
  rw [lastHeld, lastHeld, List.filter_cons]
  by_cases h : u.sec = sec
  · rw [if_pos h, if_pos (by simpa using h), List.getLast?_cons]
    cases (rest.filter (·.sec == sec)).getLast? <;> rfl
  · rw [if_neg h, if_neg (by simpa using h)]

/-- What was held first matters for a part of the settings only through that part. -/
theorem apply_lastHeld {α : Type} (f : Settings → α) {first first' : Settings}
    (h : f first = f first') (updates : List Update) (sec : Section) :
    f (lastHeld first updates sec) = f (lastHeld first' updates sec) := by
  rw [lastHeld, lastHeld]
  cases (updates.filter (·.sec == sec)).getLast? with
  | none => exact h
  | some u => rfl

/-- The last update of each section stays. -/
theorem settingsAfter_eq (first : Settings) (updates : List Update) :
    settingsAfter first updates =
      ⟨(lastHeld first updates .sync).sync, (lastHeld first updates .logging).logging⟩ := by
  induction updates generalizing first with
  | nil => rfl
  | cons u rest ih =>
    rw [settingsAfter, List.foldl_cons, ← settingsAfter, ih, lastHeld_cons, lastHeld_cons]
    congr 1
    · refine apply_lastHeld Settings.sync ?_ rest .sync
      cases hsec : u.sec <;> rfl
    · refine apply_lastHeld Settings.logging ?_ rest .logging
      cases hsec : u.sec <;> rfl

/-- The first update and the others. -/
theorem updateAll_cons {u : Update} {rest : List Update}
    (h : Store.updateAll path (u :: rest) d = some d') :
    (Store.updateSection ⟨path, u.settings⟩ u.sec d).error = none ∧
      Store.updateAll path rest (Store.updateSection ⟨path, u.settings⟩ u.sec d).disk =
        some d' := by
  rw [Store.updateAll, List.foldlM_cons] at h
  obtain ⟨middle, hmiddle, hrest⟩ := Option.bind_eq_some_iff.mp h
  dsimp only at hmiddle
  split at hmiddle
  · next hok =>
    obtain rfl := Option.some.inj hmiddle
    exact ⟨hok, hrest⟩
  · contradiction

/-- After updates that all succeed the last update of each section stays, and so does all that
stood under the names of other sections. -/
theorem Ready.updateAll (h : Ready path d document settings) {updates : List Update}
    (hne : updates ≠ []) (hfree : ∀ u ∈ updates, document.Unannotated u.sec.tableName)
    (hrun : Store.updateAll path updates d = some d') :
    ∃ document', Holds path d' document' (settingsAfter settings updates) ∧
      ∀ name, (∀ u ∈ updates, name ≠ u.sec.tableName) →
        document'.under name = document.under name := by
  induction updates generalizing d document settings with
  | nil => contradiction
  | cons u rest ih =>
    obtain ⟨hok, hrest⟩ := updateAll_cons hrun
    obtain ⟨hu, hfree_rest⟩ := List.forall_mem_cons.mp hfree
    obtain ⟨document₁, hholds, hothers, hfree₁⟩ := h.updateSection hu hok
    cases rest with
    | nil =>
      obtain rfl := Option.some.inj hrest
      exact ⟨document₁, hholds, fun name hname => hothers name (hname u (by simp))⟩
    | cons next rest =>
      obtain ⟨document', hholds', hothers'⟩ := ih (.present hholds) (by simp)
        (fun u hu => (hfree₁ _).mpr (hfree_rest u hu)) hrest
      refine ⟨document', hholds', fun name hname => ?_⟩
      obtain ⟨hname, hname_rest⟩ := List.forall_mem_cons.mp hname
      rw [hothers' name hname_rest, hothers name hname]

/-- A file that is spoiled is never updated again. -/
theorem Unreadable.updateAll (h : Unreadable path d) {updates : List Update}
    (hrun : Store.updateAll path updates d = some d') : Unreadable path d' := by
  cases updates with
  | nil =>
    obtain rfl := Option.some.inj hrun
    exact h
  | cons u rest =>
    have hok := (updateAll_cons hrun).1
    rw [h.updateSection] at hok
    contradiction

/-- An update that spoils the file is the last one that succeeds. -/
theorem Ready.updateAll_unreadable (h : Ready path d document settings) {updates : List Update}
    {u : Update} (hu : u ∈ updates) (hannotated : ¬ document.Unannotated u.sec.tableName)
    (hrun : Store.updateAll path updates d = some d') : Unreadable path d' := by
  induction updates generalizing d document settings with
  | nil => contradiction
  | cons first rest ih =>
    obtain ⟨hok, hrest⟩ := updateAll_cons hrun
    by_cases hfirst : document.Unannotated first.sec.tableName
    · obtain ⟨document₁, hholds, -, hfree₁⟩ := h.updateSection hfirst hok
      have hmem : u ∈ rest :=
        (List.mem_cons.mp hu).resolve_left fun heq => hannotated (heq ▸ hfirst)
      exact ih (.present hholds) hmem (fun hu => hannotated ((hfree₁ _).mp hu)) hrest
    · exact (h.unreadable hfirst hok).updateAll hrest

/-! ## What is kept -/

/-- Updates lost nothing: whatever a store holds, it loads each section as it was held at its last
update, and every key that is not the name of an updated section has its first value. -/
structure Kept (path : String) (d' : Disk) (document : Document) (first : Settings)
    (updates : List Update) : Prop where
  load : ∀ held, Store.load ⟨path, held⟩ d' =
    { store :=
        ⟨path, (lastHeld first updates .sync).sync, (lastHeld first updates .logging).logging⟩
      disk := d' }
  others : ∃ text document', d'.tree.readText path = .ok text ∧
    Document.parse? text = some document' ∧
    ∀ name, (∀ u ∈ updates, name ≠ u.sec.tableName) →
      (Entries.find? document'.entries name).map Item.toValue =
        (Entries.find? document.entries name).map Item.toValue

/-- Updates that all succeed lose nothing exactly if no updated section is a plain value with a
comment or a line break before its key; otherwise the file cannot be read any more. -/
theorem kept_iff {first : Settings} (h : Begins path d text document first)
    (hstrict : Document.parseStrictly? text = some document) {updates : List Update}
    (hne : updates ≠ []) (hrun : Store.updateAll path updates d = some d') :
    Kept path d' document first updates ↔
      ∀ u ∈ updates, document.Unannotated u.sec.tableName := by
  have hready := h.ready hstrict
  constructor
  · intro hkept u hu
    by_contra hannotated
    have hnone := (hready.updateAll_unreadable hu hannotated hrun).load {}
    rw [hkept.load] at hnone
    contradiction
  · intro hfree
    obtain ⟨document', hholds, hothers⟩ := hready.updateAll hne hfree hrun
    obtain ⟨text', hread, hstrict'⟩ := hholds.read
    rw [settingsAfter_eq] at hholds
    refine ⟨hholds.load, text', document', hread, Document.parse?_of_parseStrictly? hstrict',
      fun name hname => ?_⟩
    rw [Document.find?_toValue, Document.find?_toValue, hothers name hname]

/-- A disk with one file. -/
def diskWith (name text : String) : Disk where
  tree := { cwd := ["home"], entries := [(["home", name], .file (Text.encode text))] }

/-- A file with both sections and another key, none of them under a header. -/
def sharedText : String :=
  "logging.level = \"debug\"\nsync = \x7b overlap_policy = \"warn\" \x7d\n# notes\nx = 1\n"

/-- Updates of one section by stores that do not know of each other. -/
def sharedUpdates : List Update :=
  [⟨{ sync := { overlapPolicy := .warn } }, .sync⟩,
    ⟨{ sync := { seekToSessionStart := false }, logging := { level := .trace } }, .sync⟩]

theorem kept_of_sharedText :
    ∃ d' document, Document.parse? sharedText = some document ∧
      Store.updateAll "v.toml" sharedUpdates (diskWith "v.toml" sharedText) = some d' ∧
      Kept "v.toml" d' document ⟨{ overlapPolicy := .warn }, { level := .debug }⟩
        sharedUpdates := by
  obtain ⟨d', hrun⟩ := Option.isSome_iff_exists.mp (by decide +kernel :
    (Store.updateAll "v.toml" sharedUpdates (diskWith "v.toml" sharedText)).isSome)
  obtain ⟨document, hstrict⟩ := Option.isSome_iff_exists.mp (by decide +kernel :
    (Document.parseStrictly? sharedText).isSome)
  have hparse := Document.parse?_of_parseStrictly? hstrict
  have hbegins : Begins "v.toml" (diskWith "v.toml" sharedText) sharedText document
      ⟨{ overlapPolicy := .warn }, { level := .debug }⟩ :=
    .accepted (by decide +kernel) (by decide +kernel) hparse
  have hfree : ((Document.parseStrictly? sharedText).all fun d => d.entries.all fun e =>
      e.1.name != "sync" || e.1.before.toList.all Toml.isBlank) = true := by decide +kernel
  have hsec : ∀ u ∈ sharedUpdates, u.sec.tableName = "sync" := by decide
  refine ⟨d', document, hparse, hrun,
    (kept_iff hbegins hstrict (by decide) hrun).mpr fun u hu e he hname => ?_⟩
  rw [hstrict, Option.all_some, List.all_eq_true] at hfree
  simpa [hname, hsec u hu, Toml.Blanks] using hfree e he

/-- A section with a comment before it, as a plain value. -/
def commentedText : String := "# playback\nsync = \x7b overlap_policy = \"warn\" \x7d\n"

/-- The update of that section makes the file unreadable. -/
theorem unreadable_of_commentedText :
    let d := diskWith "v.toml" commentedText
    let updated := Store.updateSection ⟨"v.toml", {}⟩ .sync d
    (Store.load ⟨"v.toml", {}⟩ d).error = none ∧ updated.error = none ∧
      (Store.load ⟨"v.toml", {}⟩ updated.disk).error = some .unreadable := by
  decide +kernel

end VideoSync
