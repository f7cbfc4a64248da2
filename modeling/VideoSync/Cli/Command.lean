import VideoSync.Cli.Arguments
import VideoSync.Settings.Store
import VideoSync.Container.Movie
import VideoSync.Timeline.Alignment

/-
  The commands. A run is a function of the arguments and the disk: it gives the text for both
  outputs, the exit code and the disk afterwards. Whatever the command, the settings are loaded
  first.
-/

namespace VideoSync.Cli

open VideoSync.Storage (Disk)
open VideoSync.Timeline (Session align)
open VideoSync.Calendar (renderOrSeconds)
open VideoSync.Decimal (intText natText plain fixed)
open VideoSync.Container (Metadata readMetadata)

/-- The version of this library. -/
def version : String := "0.1.0"

/-- What a run leaves behind. -/
structure Result where
  code : Nat
  stdout : String := ""
  stderr : String := ""
  disk : Disk

/-- A failed command: what was being done, and the causes, the outer one first. -/
structure Report where
  headline : String
  causes : List String := []

/-- A text with each line after the first moved to the right. -/
def indented (margin : String) (text : String) : String :=
  text.toList.foldl (fun out c => if c = '\n' then out ++ "\n" ++ margin else out.push c) ""

/-- A number right-aligned in five columns. -/
def margin (n : Nat) : String :=
  let digits := natText n
  String.ofList (List.replicate (5 - digits.length) ' ') ++ digits

/-- The report of a failure. Several causes are numbered. -/
def Report.text (r : Report) : String :=
  let causes := match r.causes with
    | [] => ""
    | [cause] => "\n\nCaused by:\n    " ++ indented "    " cause
    | causes =>
      "\n\nCaused by:" ++ String.join
        (causes.mapIdx fun i cause => "\n" ++ margin i ++ ": " ++ indented "       " cause)
  "Error: " ++ r.headline ++ causes ++ "\n"

/-- The causes of a container error: the error, and the failure behind it. -/
def causes (e : Container.Error) : List String :=
  match e with
  | .io failure => [e.message, failure.text]
  | _ => [e.message]

/-- A label in its column with a value after it. -/
def line (label value : String) : String :=
  label ++ String.ofList (List.replicate (15 - label.length) ' ') ++ value ++ "\n"

/-- The lines about a file. -/
def fileLines (file : String) (m : Metadata) : String :=
  line "file:" file ++
  line "created:" (renderOrSeconds m.creation ++ " (" ++ intText m.creation ++ ")") ++
  line "duration:" (match m.duration with
    | some seconds => fixed 3 seconds ++ "s"
    | none => "unknown")

/-- The lines about a session. -/
def sessionLines (m : Metadata) (duration : Float) (session : Session) : String :=
  let a := align m.creation duration session
  line "session:" (renderOrSeconds session.start ++ " .. " ++ renderOrSeconds session.stop) ++
  line "offset:" (plain a.offset ++ "s") ++
  line "overlaps:" (if a.overlaps then "true" else "false") ++
  line "start at:" (fixed 3 (a.initialPosition duration) ++ "s into the video")

/-- What a probe says about a session, or why it says nothing. A session of negative duration is
refused. -/
def probeSession (m : Metadata) (session : Session) (duration : Option Float) :
    Except Report String :=
  if session.duration < 0 then
    .error ⟨"session end " ++ intText session.stop ++ " is before session start "
      ++ intText session.start, []⟩
  else match duration.or m.duration with
    | none => .error ⟨"file has no duration; pass --duration", []⟩
    | some seconds => .ok (sessionLines m seconds session)

/-- Prints the creation time of a video and, for a session, its alignment. -/
def probe (disk : Disk) (file : String) (session : Option (Int × Int)) (duration : Option Float) :
    Result :=
  let metadata : Except Container.Error Metadata := match disk.tree.openSource file with
    | .error e => .error (.io e)
    | .ok source => readMetadata source
  match metadata with
  | .error e => { code := 1, stderr := Report.text ⟨"reading " ++ file, causes e⟩, disk }
  | .ok m =>
    let stdout := fileLines file m
    match session with
    | none => { code := 0, stdout, disk }
    | some (start, stop) =>
      match probeSession m ⟨start, stop⟩ duration with
      | .error report => { code := 1, stdout, stderr := report.text, disk }
      | .ok more => { code := 0, stdout := stdout ++ more, disk }

/-- Prints the settings. -/
def showConfig (store : Store) : String :=
  let label := fun name : String =>
    name ++ String.ofList (List.replicate (22 - name.length) ' ') ++ "= "
  "# " ++ store.path ++ "\n" ++
  label "overlap_policy" ++ store.settings.sync.overlapPolicy.name ++ "\n" ++
  label "metadata_timeout_ms" ++ natText store.settings.sync.metadataTimeout.toNat ++ "\n" ++
  label "seek_to_session_start" ++
    (if store.settings.sync.seekToSessionStart then "true" else "false") ++ "\n" ++
  label "log level" ++ store.settings.logging.level.title ++ "\n"

/-- The causes of a store's error: the error, and the failure behind it. -/
def storeCauses (e : StoreError) : List String :=
  match e with
  | .file failure => [e.message, failure.text]
  | _ => [e.message]

/-- How the program is used. -/
def usage : String :=
  "Video/telemetry sync tools\n\n" ++
  "Usage: vts [OPTIONS] <COMMAND>\n\n" ++
  "Commands:\n" ++
  "  probe   Print a video's creation time and, given a session, its alignment\n" ++
  "  config  Print the effective configuration\n" ++
  "  help    Print this message or the help of the given subcommand(s)\n\n" ++
  "Options:\n" ++
  "  -c, --config <CONFIG>        Config file (created with defaults if missing) [default: "
    ++ defaultConfig ++ "]\n" ++
  "      --log-level <LOG_LEVEL>  Log level (overrides the config file)\n" ++
  "  -h, --help                   Print help\n" ++
  "  -V, --version                Print version\n"

/-- Carries out a command once the settings are loaded. -/
def execute (disk : Disk) (config : String) (command : Command) : Result :=
  let attempt := Store.loadOrCreate { path := config } disk
  match attempt.error with
  | some e =>
    { code := 1, stderr := Report.text ⟨"loading config " ++ config, storeCauses e⟩
      disk := attempt.disk }
  | none =>
    match command with
    | .probe file session duration => probe attempt.disk file session duration
    | .config => { code := 0, stdout := showConfig attempt.store, disk := attempt.disk }

/-- A run of the program. -/
def run (disk : Disk) (args : List String) : Result :=
  match parse args with
  | .error e =>
    { code := 2, stderr := e.message ++ "\n\nFor more information, try '--help'.\n", disk }
  | .ok .version => { code := 0, stdout := "vts " ++ version ++ "\n", disk }
  | .ok .help => { code := 0, stdout := usage, disk }
  | .ok (.run config _ command) => execute disk config command

end VideoSync.Cli
