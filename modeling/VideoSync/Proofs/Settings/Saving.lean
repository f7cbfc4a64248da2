import VideoSync.Proofs.Settings.FileText
import VideoSync.Proofs.Storage.Replacing
import VideoSync.Settings.Store

/-
  Settings that are saved. Saving fails only if a step of replacing the file does, and what is
  saved can always be loaded. A store that may write the file anew is stricter than one that only
  loads it: it refuses a number that has no 64 bits with a sign, and so it refuses a file that was
  saved with a timeout of 2 ^ 63 milliseconds or more (`save_read_back`,
  `notEditable_of_unsignedTimeout`).
-/

namespace VideoSync

open VideoSync.Storage (Disk)
open VideoSync.Toml (Document)

/-! ## Replacing a file, step by step -/

namespace Storage.Disk

variable {d after : Disk} {path : String} {bytes : Bytes}

/-- The tree with the directories that lead to a path. -/
def directoriesTo (d : Disk) (path : String) : Tree × Option Failure :=
  ((Path.parent? path).map d.tree.makeDirectories).getD (d.tree, none)

/-- Every step of a replacement succeeds: the directories are made, the temporary file can be placed
and is written, and it is moved to the path. -/
def Replaceable (d : Disk) (path : String) (bytes : Bytes) : Prop :=
  ∃ tree place written moved, d.directoriesTo path = (tree, none) ∧
    tree.writable (temporaryPath path) = .ok place ∧
    (d.withTree tree).writeFile place bytes = (written, none) ∧
    written.tree.renameTo place path = .ok moved

theorem writeAndRename_eq_none_iff :
    (d.writeAndRename path bytes).2 = none ↔
      ∃ place written moved, d.tree.writable (temporaryPath path) = .ok place ∧
        d.writeFile place bytes = (written, none) ∧
        written.tree.renameTo place path = .ok moved := by
  unfold writeAndRename
  cases hplace : d.tree.writable (temporaryPath path) with
  | error e => simp
  | ok place =>
    dsimp only
    rcases hwrite : d.writeFile place bytes with ⟨written, _ | e⟩
    · cases hmove : written.tree.renameTo place path with
      | error e => simp [hwrite, hmove]
      | ok moved => simp [hwrite, hmove]
    · simp [hwrite]

/-- A replacement first creates the directories that lead to the file. -/
theorem replace_eq (d : Disk) (path : String) (bytes : Bytes) :
    d.replace path bytes = match d.directoriesTo path with
      | (tree, some e) => (d.withTree tree, some e)
      | (tree, none) => (d.withTree tree).writeAndRename path bytes := by
  unfold replace directoriesTo
  cases Path.parent? path <;> rfl

/-- A replacement fails only in one of its steps. -/
theorem replace_eq_none_iff : (d.replace path bytes).2 = none ↔ d.Replaceable path bytes := by
  rw [replace_eq, Replaceable]
  rcases hmade : d.directoriesTo path with ⟨tree, _ | e⟩
  · dsimp only
    rw [writeAndRename_eq_none_iff]
    simp [withTree]
  · simp

end Storage.Disk

/-! ## Files that are read -/

/-- A file whose document gives settings. -/
structure Reads (path : String) (d : Disk) (document : Document) (settings : Settings) : Prop where
  file : d.tree.exists? path = true
  read : ∃ text, d.tree.readText path = .ok text ∧ Document.parse? text = some document
  gives : Settings.ofDocument? document = some settings

namespace Reads

variable {path : String} {d : Disk} {document : Document} {settings : Settings}

theorem load (h : Reads path d document settings) (held : Settings) :
    Store.load ⟨path, held⟩ d = { store := ⟨path, settings⟩, disk := d } := by
  obtain ⟨text, hread, hparse⟩ := h.read
  simp only [Store.load, h.file, hread, hparse, Option.bind_some, h.gives, Store.withSettings]
  rfl

/-- A file that can be edited is left alone if it is as it should be, and otherwise written anew. -/
theorem loadOrCreate_eq (h : Reads path d document settings) (heditable : document.editable = true)
    (held : Settings) :
    Store.loadOrCreate ⟨path, held⟩ d = if Settings.isNormal document then
      { store := ⟨path, settings⟩, disk := d } else Store.save ⟨path, settings⟩ d := by
  obtain ⟨text, hread, hparse⟩ := h.read
  have hunderstand : Store.understand text = .ok (settings, Settings.isNormal document) := by
    simp only [Store.understand, Settings.editable?, hparse, Option.filter, heditable, if_true,
      h.gives]
  simp only [Store.loadOrCreate, h.file, hread, hunderstand, Store.withSettings]
  cases Settings.isNormal document <;> rfl

theorem loadOrCreate (h : Reads path d document settings) (heditable : document.editable = true)
    (hnormal : Settings.isNormal document = true) (held : Settings) :
    Store.loadOrCreate ⟨path, held⟩ d = { store := ⟨path, settings⟩, disk := d } := by
  rw [h.loadOrCreate_eq heditable, if_pos hnormal]

/-- A file with a number that does not fit is refused. -/
theorem loadOrCreate_of_not_editable (h : Reads path d document settings)
    (heditable : ¬ document.editable = true) (held : Settings) :
    Store.loadOrCreate ⟨path, held⟩ d =
      { store := ⟨path, held⟩, disk := d, error := some .notEditable } := by
  obtain ⟨text, hread, hparse⟩ := h.read
  have hunderstand : Store.understand text = .error .notEditable := by
    simp only [Store.understand, Settings.editable?, hparse, Option.filter, heditable]
    rfl
  simp only [Store.loadOrCreate, h.file, hread, hunderstand]
  rfl

end Reads

/-! ## What is saved -/

variable {s : Store} {d : Disk}

/-- What is saved is read as the settings in memory. -/
theorem reads_of_save (h : (s.save d).error = none) :
    ∃ document, Reads s.path (s.save d).disk document s.settings ∧ s.settings.Fills document := by
  obtain ⟨document, hparse, hfills⟩ := s.settings.exists_fileText
  rw [Store.save, Store.write] at h ⊢
  rcases hreplace : d.replace s.path (Text.encode s.settings.fileText) with ⟨disk, failure⟩
  simp only [hreplace, Option.map_eq_none_iff] at h ⊢
  subst h
  obtain ⟨hfile, hread⟩ := Storage.Disk.readText_of_replace hreplace
  exact ⟨document, ⟨hfile, ⟨_, hread, Document.parse?_of_parseStrictly? hparse⟩,
    hfills.ofDocument?⟩, hfills⟩

theorem save_error_eq_none_iff :
    (s.save d).error = none ↔ d.Replaceable s.path (Text.encode s.settings.fileText) := by
  rw [← Storage.Disk.replace_eq_none_iff, Store.save, Store.write]
  exact Option.map_eq_none_iff

/-- What is saved can be loaded. -/
theorem load_of_save (h : (s.save d).error = none) (held : Settings) :
    Store.load ⟨s.path, held⟩ (s.save d).disk = { store := s, disk := (s.save d).disk } := by
  obtain ⟨document, hreads, -⟩ := reads_of_save h
  exact hreads.load held

/-- What is saved is accepted by a store that may write the file anew if the timeout is a number
with a sign, and otherwise refused. -/
theorem loadOrCreate_of_save (h : (s.save d).error = none) (held : Settings) :
    Store.loadOrCreate ⟨s.path, held⟩ (s.save d).disk =
      if s.settings.sync.metadataTimeout.toNat < Width.capacity 63 then
        { store := s, disk := (s.save d).disk }
      else { store := ⟨s.path, held⟩, disk := (s.save d).disk, error := some .notEditable } := by
  obtain ⟨document, hreads, hfills⟩ := reads_of_save h
  split
  · next hfits => exact hreads.loadOrCreate (hfills.editable_iff.mpr hfits) hfills.isNormal held
  · next hlong =>
    exact hreads.loadOrCreate_of_not_editable (fun h => hlong (hfills.editable_iff.mp h)) held

/-- Saving fails only in a step of replacing the file. What is saved is loaded by every store; one
that may write the file anew takes the same settings and leaves the file alone if the timeout is a
number with a sign, and otherwise it refuses the file. -/
theorem save_read_back (s : Store) (d : Disk) :
    ((s.save d).error = none ↔ d.Replaceable s.path (Text.encode s.settings.fileText)) ∧
    ((s.save d).error = none →
      (∀ held, Store.load ⟨s.path, held⟩ (s.save d).disk =
        { store := s, disk := (s.save d).disk }) ∧
      ∀ held, Store.loadOrCreate ⟨s.path, held⟩ (s.save d).disk =
        if s.settings.sync.metadataTimeout.toNat < Width.capacity 63 then
          { store := s, disk := (s.save d).disk }
        else { store := ⟨s.path, held⟩, disk := (s.save d).disk, error := some .notEditable }) :=
  ⟨save_error_eq_none_iff, fun h => ⟨load_of_save h, loadOrCreate_of_save h⟩⟩

/-- A disk with a directory and nothing in it. -/
def emptyDisk : Disk where
  tree := { cwd := ["home"] }

/-- Settings are saved and read back. -/
theorem save_read_back_of_default :
    (Store.save ⟨"v.toml", {}⟩ emptyDisk).error = none ∧
      (Store.loadOrCreate ⟨"v.toml", { logging := { level := .trace } }⟩
        (Store.save ⟨"v.toml", {}⟩ emptyDisk).disk).store = ⟨"v.toml", {}⟩ := by
  have hsave : (Store.save ⟨"v.toml", {}⟩ emptyDisk).error = none := by decide +kernel
  refine ⟨hsave, ?_⟩
  rw [((save_read_back ⟨"v.toml", {}⟩ emptyDisk).2 hsave).2]
  rfl

/-- The shortest timeout that is no number with a sign. -/
def unsignedTimeout : Settings where
  sync := { metadataTimeout := 9223372036854775808 }

theorem notEditable_of_unsignedTimeout :
    let saved := Store.save ⟨"v.toml", unsignedTimeout⟩ emptyDisk
    saved.error = none ∧
      Store.load ⟨"v.toml", {}⟩ saved.disk =
        { store := ⟨"v.toml", unsignedTimeout⟩, disk := saved.disk } ∧
      (Store.loadOrCreate ⟨"v.toml", {}⟩ saved.disk).error = some .notEditable := by
  have hsave : (Store.save ⟨"v.toml", unsignedTimeout⟩ emptyDisk).error = none := by decide +kernel
  refine ⟨hsave, load_of_save hsave {}, ?_⟩
  have hlong : ¬ unsignedTimeout.sync.metadataTimeout.toNat < Width.capacity 63 := by decide +kernel
  rw [loadOrCreate_of_save hsave, if_neg hlong]

end VideoSync
