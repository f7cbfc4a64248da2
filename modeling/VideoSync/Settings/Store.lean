import VideoSync.Settings.Text
import VideoSync.Storage.Disk

/-
  Settings kept in a file. A store holds the settings in memory and the path of their file; it loads
  them, saves them, and updates one section of the file without touching the rest.
-/

namespace VideoSync

open VideoSync.Storage (Disk Failure)
open VideoSync.Toml (Document)

/-- Why settings could not be loaded or written. -/
inductive StoreError where
  /-- The file could not be read or written. -/
  | file (failure : Failure)
  /-- The file's text gives no settings. -/
  | unreadable
  /-- The file's text is not a document that can be edited. -/
  | notEditable
  | notFound (path : String)
  deriving DecidableEq

/-- The error in words. -/
def StoreError.message : StoreError → String
  | file failure => "Failed to read config file: " ++ failure.text
  | unreadable => "Failed to parse config"
  | notEditable => "Failed to parse config for editing"
  | notFound path => "Config file not found: " ++ path

/-- Settings in memory with the path of their file. -/
structure Store where
  path : String
  settings : Settings := {}
  deriving DecidableEq

/-- What an operation of a store leaves behind. -/
structure Attempt where
  store : Store
  disk : Disk
  error : Option StoreError := none
  deriving DecidableEq

namespace Store

/-- The same store with other settings in memory. -/
def withSettings (s : Store) (settings : Settings) : Store := { s with settings }

/-- Puts a text in the place of the file. -/
def write (s : Store) (d : Disk) (text : String) : Attempt :=
  let (disk, failure) := d.replace s.path (Text.encode text)
  { store := s, disk, error := failure.map .file }

/-- Loads the settings; the file has to exist. -/
def load (s : Store) (d : Disk) : Attempt :=
  if !d.tree.exists? s.path then { store := s, disk := d, error := some (.notFound s.path) }
  else match d.tree.readText s.path with
    | .error e => { store := s, disk := d, error := some (.file e) }
    | .ok text =>
      match (Document.parse? text).bind Settings.ofDocument? with
      | none => { store := s, disk := d, error := some .unreadable }
      | some settings => { store := s.withSettings settings, disk := d }

/-- Writes all settings. -/
def save (s : Store) (d : Disk) : Attempt := s.write d s.settings.fileText

/-- What a text means to a store that may write it anew: its settings and whether it is as it should
be. -/
def understand (text : String) : Except StoreError (Settings × Bool) :=
  match Settings.editable? text with
  | none => .error .notEditable
  | some document =>
    match Settings.ofDocument? document with
    | none => .error .unreadable
    | some settings => .ok (settings, Settings.isNormal document)

/-- Loads the settings, or takes the defaults where there is no file. A missing file is created, and
one that has other sections or not all settings is written anew. -/
def loadOrCreate (s : Store) (d : Disk) : Attempt :=
  if !d.tree.exists? s.path then (s.withSettings {}).save d
  else match d.tree.readText s.path with
    | .error e => { store := s, disk := d, error := some (.file e) }
    | .ok text =>
      match understand text with
      | .error e => { store := s, disk := d, error := some e }
      | .ok (settings, true) => { store := s.withSettings settings, disk := d }
      | .ok (settings, false) => (s.withSettings settings).save d

/-- The document in the file; where there is no file or nothing in it, the empty one. -/
def current (s : Store) (d : Disk) : Except StoreError Document :=
  if !d.tree.exists? s.path then .ok {}
  else match d.tree.readText s.path with
    | .error e => .error (.file e)
    | .ok text =>
      if text = "" then .ok {}
      else match Settings.editable? text with
        | none => .error .notEditable
        | some document => .ok document

/-- Writes one section of the settings in memory into the file, which keeps all else. -/
def updateSection (s : Store) (sec : Section) (d : Disk) : Attempt :=
  match s.current d with
  | .error e => { store := s, disk := d, error := some e }
  | .ok document =>
    match Settings.editable? (s.settings.sectionText sec) with
    | none => { store := s, disk := d, error := some .notEditable }
    | some table => s.write d (Settings.putSection document sec table.entries).render

end Store
end VideoSync
