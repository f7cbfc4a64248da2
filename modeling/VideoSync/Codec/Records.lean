import VideoSync.Codec.Datum
import VideoSync.Settings.Basic
import VideoSync.Container.Metadata
import VideoSync.Timeline.Alignment
import VideoSync.Sync.Phase

/-
  Records of this library as values in a document: settings, phases, metadata, sessions and
  alignments. Settings may be left out; the other records have to be complete.
-/

namespace VideoSync

namespace OverlapPolicy

/-- A policy by its name. -/
def ofDatum? (dialect : Dialect) (d : Datum) : Option OverlapPolicy := d.choice? dialect all name

/-- The name of a policy. -/
def toDatum (p : OverlapPolicy) : Datum := .text p.name

end OverlapPolicy

namespace LogLevel

/-- A level by its exact name. -/
def ofDatum? (dialect : Dialect) (d : Datum) : Option LogLevel := d.choice? dialect all name

/-- The name of a level. -/
def toDatum (l : LogLevel) : Datum := .text l.name

end LogLevel

namespace SyncSettings

/-- The names of the settings in file order. -/
def names : List String := ["overlap_policy", "metadata_timeout_ms", "seek_to_session_start"]

/-- The section on syncing, with defaults for what is left out. -/
def ofDatum? (dialect : Dialect) (d : Datum) : Option SyncSettings := do
  let f ← d.record? dialect names
  return {
    overlapPolicy := ← f.orDefault 0 .reject (OverlapPolicy.ofDatum? dialect)
    metadataTimeout := ← f.orDefault 1 5000 Datum.uint64?
    seekToSessionStart := ← f.orDefault 2 true Datum.bool? }

/-- The settings as fields. -/
def toFields (s : SyncSettings) : List (String × Datum) :=
  [("overlap_policy", s.overlapPolicy.toDatum),
   ("metadata_timeout_ms", .integer s.metadataTimeout.toNat),
   ("seek_to_session_start", .bool s.seekToSessionStart)]

end SyncSettings

namespace LoggingSettings

/-- The names of the settings in file order. -/
def names : List String := ["level"]

/-- The section on logging, with defaults for what is left out. -/
def ofDatum? (dialect : Dialect) (d : Datum) : Option LoggingSettings := do
  let f ← d.record? dialect names
  return { level := ← f.orDefault 0 .info (LogLevel.ofDatum? dialect) }

/-- The settings as fields. -/
def toFields (s : LoggingSettings) : List (String × Datum) := [("level", s.level.toDatum)]

end LoggingSettings

namespace Section

/-- The names of the settings in a section. -/
def names : Section → List String
  | sync => SyncSettings.names
  | logging => LoggingSettings.names

end Section

namespace Settings

/-- The names of the sections. -/
def names : List String := Section.all.map Section.tableName

/-- All settings, with defaults for what is left out. -/
def ofDatum? (dialect : Dialect) (d : Datum) : Option Settings := do
  let f ← d.record? dialect names
  return {
    sync := ← f.orDefault 0 {} (SyncSettings.ofDatum? dialect)
    logging := ← f.orDefault 1 {} (LoggingSettings.ofDatum? dialect) }

/-- The fields of one section. -/
def sectionFields (s : Settings) : Section → List (String × Datum)
  | .sync => s.sync.toFields
  | .logging => s.logging.toFields

/-- The sections as fields. -/
def toFields (s : Settings) : List (String × Datum) :=
  Section.all.map fun sec => (sec.tableName, .fields (s.sectionFields sec))

end Settings

namespace Sync.Phase

/-- A phase by its name. -/
def ofDatum? (dialect : Dialect) (d : Datum) : Option Phase := d.choice? dialect all name

/-- The name of a phase. -/
def toDatum (p : Phase) : Datum := .text p.name

end Sync.Phase

namespace Container.Metadata

/-- Metadata; an unknown duration is left out. -/
def ofDatum? (dialect : Dialect) (d : Datum) : Option Metadata := do
  let f ← d.record? dialect ["creation_time_epoch_seconds", "duration_seconds"]
  return ⟨← f.required 0 Datum.int64?, ← f.optional 1 Datum.double?⟩

/-- The metadata as fields. -/
def toFields (m : Metadata) : List (String × Datum) :=
  ("creation_time_epoch_seconds", .integer m.creation) ::
    m.duration.toList.map fun seconds => ("duration_seconds", .real seconds)

end Container.Metadata

namespace Timeline

/-- A session by its bounds. -/
def Session.ofDatum? (dialect : Dialect) (d : Datum) : Option Session := do
  let f ← d.record? dialect ["start_epoch_seconds", "end_epoch_seconds"]
  return ⟨← f.required 0 Datum.int64?, ← f.required 1 Datum.int64?⟩

/-- The bounds as fields. -/
def Session.toFields (s : Session) : List (String × Datum) :=
  [("start_epoch_seconds", .integer s.start), ("end_epoch_seconds", .integer s.stop)]

/-- An alignment. -/
def Alignment.ofDatum? (dialect : Dialect) (d : Datum) : Option Alignment := do
  let f ← d.record? dialect ["time_offset_seconds", "overlaps", "media_start_epoch_seconds",
    "media_end_epoch_seconds"]
  return ⟨← f.required 0 Datum.double?, ← f.required 1 Datum.bool?,
    ← f.required 2 Datum.int64?, ← f.required 3 Datum.double?⟩

/-- The alignment as fields. -/
def Alignment.toFields (a : Alignment) : List (String × Datum) :=
  [("time_offset_seconds", .real a.offset), ("overlaps", .bool a.overlaps),
   ("media_start_epoch_seconds", .integer a.mediaStart),
   ("media_end_epoch_seconds", .real a.mediaStop)]

end Timeline
end VideoSync
