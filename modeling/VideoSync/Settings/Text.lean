import VideoSync.Codec.Records
import VideoSync.Toml.Reading
import VideoSync.Toml.Writing

/-
  The text of a settings file: what is generated, what is understood, and which files are in need of
  being written anew.
-/

namespace VideoSync.Settings

open VideoSync.Toml (Document Entries Item)

/-- The comment above a section. -/
def comment : Section → String
  | .sync => "# Video/telemetry sync (overlap_policy: \"reject\" or \"warn\")"
  | .logging => "# Logging configuration"

/-- The comment at the top. -/
def heading : String :=
  "# Video Telemetry Sync Configuration\n" ++
  "# This file is auto-generated. Comments may be preserved on section updates.\n"

/-- The lines of one section without its header. -/
def sectionText (s : Settings) (sec : Section) : String := Toml.valueLines (s.sectionFields sec)

/-- A whole settings file. -/
def fileText (s : Settings) : String :=
  Section.all.foldl (fun out sec =>
    out ++ "\n" ++ comment sec ++ "\n[" ++ sec.tableName ++ "]\n" ++ s.sectionText sec) heading

/-- The settings that a document gives. -/
def ofDocument? (d : Document) : Option Settings := ofDatum? Toml.dialect d.toDatum

/-- Whether a section is a table, and not a value, that has all settings. -/
def isComplete (d : Document) (sec : Section) : Bool :=
  match d.entries.find? sec.tableName with
  | some (.table _ entries) => sec.names.all fun name => (Entries.find? entries name).isSome
  | _ => false

/-- Whether a document has just the sections, and these are complete. -/
def isNormal (d : Document) : Bool :=
  d.entries.all (fun e => names.contains e.1.name) && Section.all.all (isComplete d)

/-- A document that can be edited. Its numbers have to fit. -/
def editable? (text : String) : Option Document :=
  (Document.parse? text).filter Document.editable

/-- The document with a section in place of the one that it has. The new table keeps the spelling of
the old key and nothing else. -/
def putSection (d : Document) (sec : Section) (entries : Entries) : Document :=
  d.put sec.tableName (.table {} entries)

end VideoSync.Settings
