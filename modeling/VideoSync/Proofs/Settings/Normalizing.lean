import VideoSync.Proofs.Settings.Saving

/-
  Settings files in their normal form. A store that may write the file anew leaves a file in this
  form behind, with the settings that it took from it, and from then on neither the file nor these
  settings change (`loadOrCreate_normalizes`). That a file written anew is accepted again rests on
  `timeout_lt`: what such a store accepts has no number beyond 64 bits with a sign, and so neither
  have the settings.
-/

namespace VideoSync

open VideoSync.Storage (Disk)
open VideoSync.Toml Item Entries

/-! ## Numbers in settings -/

namespace Datum

/-- The data that a datum is made of. -/
def parts : Datum → List Datum
  | list items => items
  | fields entries => entries.map (·.2)
  | _ => []

variable {dialect : Dialect} {names : List String} {f : Fields} {d part : Datum} {i : Nat}

theorem mem_of_single? {entries : List (String × Datum)} {name : String}
    (h : single? entries name = some (some part)) : part ∈ entries.map (·.2) := by
  unfold single? at h
  split at h
  · cases h
  · next found _ heq =>
    cases h
    have hmem : (found, part) ∈ entries.filter (·.1 == name) := by
      rw [heq]
      exact List.mem_singleton_self _
    exact List.mem_map.mpr ⟨_, (List.mem_filter.mp hmem).1, rfl⟩
  · contradiction

theorem exists_single? {entries : List (String × Datum)} {values : List (Option Datum)}
    (h : names.mapM (single? entries) = some values) {value : Option Datum}
    (hvalue : value ∈ values) : ∃ name, single? entries name = some value := by
  induction names generalizing values with
  | nil =>
    obtain rfl := Option.some.inj h
    contradiction
  | cons name rest ih =>
    rw [List.mapM_cons] at h
    obtain ⟨first, hfirst, h⟩ := Option.bind_eq_some_iff.mp h
    obtain ⟨more, hmore, h⟩ := Option.bind_eq_some_iff.mp h
    obtain rfl := Option.some.inj h
    rcases List.mem_cons.mp hvalue with rfl | hvalue
    · exact ⟨name, hfirst⟩
    · exact ih hmore hvalue

/-- The values of a record are parts of what it is read from. -/
theorem mem_parts_of_record? (hrecord : record? dialect names d = some f)
    (hat : f.at? i = some part) : part ∈ d.parts := by
  rw [Fields.at?, Option.join_eq_some_iff] at hat
  unfold record? at hrecord
  cases d with
  | fields entries =>
    dsimp only at hrecord
    split at hrecord
    · obtain ⟨values, hvalues, rfl⟩ := Option.map_eq_some_iff.mp hrecord
      obtain ⟨name, hname⟩ := exists_single? hvalues (List.mem_of_getElem? hat)
      exact mem_of_single? hname
    · contradiction
  | list items =>
    dsimp only at hrecord
    split at hrecord
    · obtain rfl := Option.some.inj hrecord
      rw [List.getElem?_map, Option.map_eq_some_iff] at hat
      obtain ⟨j, -, hj⟩ := hat
      exact List.mem_of_getElem? hj
    · contradiction
  | _ => contradiction

end Datum

theorem Toml.Value.itemsToData_eq (items : List Value) :
    Value.itemsToData items = items.map Value.toDatum := by
  induction items with
  | nil => rfl
  | cons v rest ih => rw [Value.itemsToData, ih, List.map_cons]

/-- An integer in a value that fits has 64 bits with a sign. -/
theorem signed_of_mem_parts {v : Value} (hfits : v.fits = true) {n : Int}
    (h : .integer n ∈ v.toDatum.parts) : Width.signed 64 n = true := by
  have hsigned {part : Value} (hpart : part.fits = true) (heq : part.toDatum = .integer n) :
      Width.signed 64 n = true := by
    rwa [Value.eq_integer heq] at hpart
  cases v with
  | array items =>
    rw [Value.fits, Value.allFit_iff] at hfits
    rw [Value.toDatum, Value.itemsToData_eq] at h
    obtain ⟨item, hitem, heq⟩ := List.mem_map.mp h
    exact hsigned (hfits item hitem) heq
  | table entries =>
    rw [Value.fits, Value.entriesFit_iff] at hfits
    rw [Value.toDatum, Value.entriesToData_eq] at h
    obtain ⟨_, hmem, heq⟩ := List.mem_map.mp h
    obtain ⟨e, he, rfl⟩ := List.mem_map.mp hmem
    exact hsigned (hfits e he) heq
  | datetime =>
    obtain ⟨_, hmem, heq⟩ := List.mem_map.mp h
    cases List.mem_singleton.mp hmem
    contradiction
  | integer m => rcases Value.toDatum_integer m with hm | hm <;> rw [hm] at h <;> contradiction
  | _ => contradiction

namespace Settings

variable {s : Settings} {d : Document}

/-- A number of 64 bits without a sign that also is one with a sign. -/
theorem toNat_lt_of_signed {datum : Datum} {timeout : UInt64}
    (h : Datum.uint64? datum = some timeout)
    (hsigned : ∀ n, datum = .integer n → Width.signed 64 n = true) :
    timeout.toNat < Width.capacity 63 := by
  unfold Datum.uint64? at h
  split at h
  · next n =>
    have hn := hsigned n rfl
    rw [Width.signed, decide_eq_true_iff] at hn
    split at h
    · obtain rfl := Option.some.inj h
      have hlt : n.toNat < Width.capacity 63 := by
        have hpos : 0 < Width.capacity 63 := by decide
        change -(Width.capacity 63 : Int) ≤ n ∧ n < Width.capacity 63 at hn
        omega
      rw [UInt64.toNat_ofNat']
      exact Nat.lt_of_le_of_lt (Nat.mod_le _ _) hlt
    · contradiction
  · contradiction

/-- What is read for syncing from a value that fits has a timeout that fits. -/
theorem timeout_lt_of_fits {v : Value} (hfits : v.fits = true) {sync : SyncSettings}
    (h : SyncSettings.ofDatum? dialect v.toDatum = some sync) :
    sync.metadataTimeout.toNat < Width.capacity 63 := by
  rw [SyncSettings.ofDatum?] at h
  obtain ⟨f, hrecord, h⟩ := Option.bind_eq_some_iff.mp h
  obtain ⟨policy, -, h⟩ := Option.bind_eq_some_iff.mp h
  obtain ⟨timeout, htimeout, h⟩ := Option.bind_eq_some_iff.mp h
  obtain ⟨seek, -, h⟩ := Option.bind_eq_some_iff.mp h
  obtain rfl := Option.some.inj h
  unfold Fields.orDefault at htimeout
  cases hat : f.at? 1 with
  | none =>
    rw [hat] at htimeout
    obtain rfl := Option.some.inj htimeout
    exact (by decide : (5000 : UInt64).toNat < Width.capacity 63)
  | some datum =>
    rw [hat] at htimeout
    refine toNat_lt_of_signed htimeout ?_
    rintro n rfl
    exact signed_of_mem_parts hfits (Datum.mem_parts_of_record? hrecord hat)

/-- Settings of a document that can be edited have a timeout that fits. -/
theorem timeout_lt (hfits : d.editable = true) (h : ofDocument? d = some s) :
    s.sync.metadataTimeout.toNat < Width.capacity 63 := by
  have hsync := (ofDocument?_eq_some.mp h).2.1
  rw [Document.editable, Document.toValue, Value.fits, Value.entriesFit_iff] at hfits
  have hunder : ∀ v ∈ d.under Section.sync.tableName, v.fits = true := by
    intro v hv
    obtain ⟨e, he, rfl⟩ := List.mem_map.mp hv
    refine hfits (e.1.name, e.2.toValue) ?_
    rw [entriesToValues_eq]
    exact List.mem_map.mpr ⟨e, (List.mem_filter.mp he).1, rfl⟩
  unfold syncOf? at hsync
  rcases hvalues : d.under Section.sync.tableName with _ | ⟨v, _ | ⟨w, rest⟩⟩
  · rw [hvalues] at hsync
    rw [← Option.some.inj hsync]
    decide
  · rw [hvalues] at hsync hunder
    exact timeout_lt_of_fits (hunder v (List.mem_singleton_self v)) hsync
  · rw [hvalues] at hsync
    contradiction

end Settings

/-! ## Files in the normal form -/

variable {s : Store} {d : Disk}

theorem understand_eq_ok {text : String} {settings : Settings} {normal : Bool}
    (h : Store.understand text = .ok (settings, normal)) :
    ∃ document, Document.parse? text = some document ∧ document.editable = true ∧
      Settings.ofDocument? document = some settings ∧ Settings.isNormal document = normal := by
  unfold Store.understand at h
  split at h
  · contradiction
  · next document hdocument =>
    obtain ⟨hparse, heditable⟩ := Option.filter_eq_some_iff.mp hdocument
    split at h
    · contradiction
    · next found hfound =>
      cases h
      exact ⟨document, hparse, heditable, hfound, rfl⟩

/-- A store that loads or creates a file creates it, or leaves it as it is, or writes the settings
anew that it gives. -/
theorem loadOrCreate_cases (h : (s.loadOrCreate d).error = none) :
    (d.tree.exists? s.path = false ∧ s.loadOrCreate d = Store.save ⟨s.path, {}⟩ d) ∨
      ∃ document settings, Reads s.path d document settings ∧ document.editable = true ∧
        s.loadOrCreate d = if Settings.isNormal document then
          { store := ⟨s.path, settings⟩, disk := d } else Store.save ⟨s.path, settings⟩ d := by
  unfold Store.loadOrCreate at h ⊢
  split at h
  · next hfile => exact .inl ⟨by simpa using hfile, if_pos hfile⟩
  · next hfile =>
    rw [if_neg hfile]
    split at h
    · contradiction
    · next text hread =>
      split at h
      · contradiction
      all_goals
        next settings hunderstand =>
        obtain ⟨document, hparse, heditable, hgives, hnormal⟩ := understand_eq_ok hunderstand
        refine .inr ⟨document, settings, ⟨by simpa using hfile, ⟨text, hread, hparse⟩, hgives⟩,
          heditable, ?_⟩
        rw [hnormal]
        rfl

/-- Settings with a timeout that fits are saved in the normal form. -/
theorem normal_of_save (hfits : s.settings.sync.metadataTimeout.toNat < Width.capacity 63)
    (h : (s.save d).error = none) :
    ∃ document, Reads s.path (s.save d).disk document s.settings ∧
      document.editable = true ∧ Settings.isNormal document = true := by
  obtain ⟨document, hreads, hfills⟩ := reads_of_save h
  exact ⟨document, hreads, hfills.editable_iff.mpr hfits, hfills.isNormal⟩

/-- What a store that loads or creates a file leaves behind: a file in the normal form that can be
edited and gives the settings in memory. -/
theorem normal_of_loadOrCreate (h : (s.loadOrCreate d).error = none) :
    ∃ document settings, (s.loadOrCreate d).store = ⟨s.path, settings⟩ ∧
      Reads s.path (s.loadOrCreate d).disk document settings ∧
      document.editable = true ∧ Settings.isNormal document = true := by
  rcases loadOrCreate_cases h with ⟨-, heq⟩ | ⟨document, settings, hreads, heditable, heq⟩
  · rw [heq] at h ⊢
    have hdefault : ({} : Settings).sync.metadataTimeout.toNat < Width.capacity 63 := by decide
    obtain ⟨document, hdocument⟩ := normal_of_save hdefault h
    exact ⟨document, {}, rfl, hdocument⟩
  · rw [heq] at h ⊢
    split at h
    · next hnormal =>
      rw [if_pos hnormal]
      exact ⟨document, settings, rfl, hreads, heditable, hnormal⟩
    · next hnormal =>
      rw [if_neg hnormal]
      obtain ⟨document, hdocument⟩ :=
        normal_of_save (Settings.timeout_lt heditable hreads.gives) h
      exact ⟨document, settings, rfl, hdocument⟩

/-- A disk with a settings file that is not in the normal form. -/
def oldDisk : Disk where
  tree := { cwd := ["home"], entries := [(["home", "v.toml"], .file (Text.encode
    "sync = \x7b overlap_policy = \"warn\" \x7d\nx = 1\n"))] }

/-- A store that succeeds in loading or creating a file leaves a file in the normal form behind, and
the settings in memory are those that every store then loads from it; loading or creating it again
changes nothing. The settings of a file that was there are kept, and a file that was in the normal
form is left alone. -/
theorem loadOrCreate_normalizes (h : (s.loadOrCreate d).error = none) :
    (∃ text document, (s.loadOrCreate d).disk.tree.readText s.path = .ok text ∧
      Document.parse? text = some document ∧ Settings.Normal document) ∧
    (∀ held, Store.load ⟨s.path, held⟩ (s.loadOrCreate d).disk =
      { store := (s.loadOrCreate d).store, disk := (s.loadOrCreate d).disk }) ∧
    (∀ held, Store.loadOrCreate ⟨s.path, held⟩ (s.loadOrCreate d).disk =
      { store := (s.loadOrCreate d).store, disk := (s.loadOrCreate d).disk }) ∧
    (d.tree.exists? s.path = true → ∀ held,
      Store.load ⟨s.path, held⟩ d = { store := (s.loadOrCreate d).store, disk := d }) ∧
    ∀ text document, d.tree.exists? s.path = true → d.tree.readText s.path = .ok text →
      Document.parse? text = some document → Settings.Normal document →
      (s.loadOrCreate d).disk = d := by
  obtain ⟨document, settings, hstore, hreads, heditable, hnormal⟩ := normal_of_loadOrCreate h
  obtain ⟨text, hread, hparse⟩ := hreads.read
  refine ⟨⟨text, document, hread, hparse, (Settings.isNormal_iff hreads.gives).mp hnormal⟩, ?_, ?_,
    fun hfile held => ?_, fun text document hfile hread hparse hdocument => ?_⟩
  · rw [hstore]
    exact hreads.load
  · rw [hstore]
    exact hreads.loadOrCreate heditable hnormal
  · obtain ⟨first, settings, hfirst, -, heq⟩ :=
      (loadOrCreate_cases h).resolve_left (by simp [hfile])
    rw [hfirst.load, heq]
    split <;> rfl
  · obtain ⟨first, settings, hfirst, -, heq⟩ :=
      (loadOrCreate_cases h).resolve_left (by simp [hfile])
    obtain ⟨text', hread', hparse'⟩ := hfirst.read
    obtain rfl : text = text' := Except.ok.inj (hread.symm.trans hread')
    obtain rfl : document = first := Option.some.inj (hparse.symm.trans hparse')
    rw [heq, if_pos ((Settings.isNormal_iff hfirst.gives).mpr hdocument)]

/-- A file with a section as a plain value and another key is written anew with its settings. -/
theorem loadOrCreate_normalizes_oldFile :
    (Store.loadOrCreate ⟨"v.toml", {}⟩ oldDisk).error = none ∧
      (Store.loadOrCreate ⟨"v.toml", {}⟩ oldDisk).disk ≠ oldDisk ∧
      Store.loadOrCreate ⟨"v.toml", {}⟩ (Store.loadOrCreate ⟨"v.toml", {}⟩ oldDisk).disk =
        { store := (Store.loadOrCreate ⟨"v.toml", {}⟩ oldDisk).store
          disk := (Store.loadOrCreate ⟨"v.toml", {}⟩ oldDisk).disk } := by
  have hok : (Store.loadOrCreate ⟨"v.toml", {}⟩ oldDisk).error = none := by decide +kernel
  have hchanged : (Store.loadOrCreate ⟨"v.toml", {}⟩ oldDisk).disk ≠ oldDisk := by decide +kernel
  exact ⟨hok, hchanged, (loadOrCreate_normalizes hok).2.2.1 {}⟩

end VideoSync
