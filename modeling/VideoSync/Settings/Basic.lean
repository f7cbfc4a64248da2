/-
  Settings: what to do with a video that misses the session, how long to wait for its duration,
  whether to start at the session's start, and how much to log. They fall into two sections, each a
  table of the settings file.
-/

namespace VideoSync

/-- What happens to a video that does not overlap the session. -/
inductive OverlapPolicy where
  | reject
  | warn
  deriving DecidableEq, Repr, Inhabited

namespace OverlapPolicy

/-- All policies. -/
def all : List OverlapPolicy := [reject, warn]

/-- The written name. -/
def name : OverlapPolicy → String
  | reject => "reject"
  | warn => "warn"

end OverlapPolicy

/-- How much is logged, the most talkative level first. -/
inductive LogLevel where
  | trace
  | debug
  | info
  | warn
  | error
  deriving DecidableEq, Repr

namespace LogLevel

instance : Inhabited LogLevel := ⟨info⟩

/-- All levels in order. -/
def all : List LogLevel := [trace, debug, info, warn, error]

/-- The written name. -/
def name : LogLevel → String
  | trace => "trace"
  | debug => "debug"
  | info => "info"
  | warn => "warn"
  | error => "error"

/-- The name as a heading. -/
def title (l : LogLevel) : String := l.name.capitalize

/-- The name in the log itself. -/
def logName (l : LogLevel) : String := l.name.toUpper

/-- The place in the order. -/
def rank : LogLevel → Nat
  | trace => 0
  | debug => 1
  | info => 2
  | warn => 3
  | error => 4

/-- The level that a word asks for: any case of letters, and `warning` as well as `warn`. -/
def ofWord? (word : String) : Option LogLevel :=
  if word.toLower = "warning" then some warn
  else all.find? (·.name = word.toLower)

/-- What is said of a word that names no level. -/
def unknownMessage (word : String) : String := "unknown log level '" ++ word.toLower ++ "'"

end LogLevel

/-- The section on syncing a video. -/
structure SyncSettings where
  overlapPolicy : OverlapPolicy := .reject
  /-- How many milliseconds to wait for the duration of a video. -/
  metadataTimeout : UInt64 := 5000
  /-- Whether a loaded video is moved to the start of the session. -/
  seekToSessionStart : Bool := true
  deriving DecidableEq, Repr, Inhabited

/-- The section on logging. -/
structure LoggingSettings where
  level : LogLevel := .info
  deriving DecidableEq, Repr, Inhabited

/-- All settings. -/
structure Settings where
  sync : SyncSettings := {}
  logging : LoggingSettings := {}
  deriving DecidableEq, Repr, Inhabited

/-- The sections of the settings. -/
inductive Section where
  | sync
  | logging
  deriving DecidableEq, Repr

namespace Section

/-- All sections in the order of the file. -/
def all : List Section := [sync, logging]

/-- The name of a section's table. -/
def tableName : Section → String
  | sync => "sync"
  | logging => "logging"

end Section
end VideoSync
