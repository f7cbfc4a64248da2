import VideoSync.Settings.Basic
import VideoSync.Calendar.Timestamp
import VideoSync.Decimal.Literal

/-
  The arguments of the command line. Options may have their value attached or in the next argument;
  such a value is checked only when the next option or file comes or the arguments end. Each level,
  the program itself and its subcommands, has options of its own.
-/

namespace VideoSync.Cli

/-- What takes a value. -/
inductive Slot where
  | config
  | logLevel
  | file
  | sessionStart
  | sessionStop
  | duration
  deriving DecidableEq, Repr

/-- A slot as the usage shows it. -/
def Slot.usage : Slot → String
  | config => "--config <CONFIG>"
  | logLevel => "--log-level <LOG_LEVEL>"
  | file => "<FILE>"
  | sessionStart => "--session-start <SESSION_START>"
  | sessionStop => "--session-end <SESSION_END>"
  | duration => "--duration <DURATION>"

/-- What is given so far. -/
structure Given where
  config : Option String := none
  logLevel : Option LogLevel := none
  file : Option String := none
  sessionStart : Option Int := none
  sessionStop : Option Int := none
  duration : Option Float := none
  deriving DecidableEq

/-- Why the arguments cannot be used. -/
inductive UsageError where
  | invalidValue (slot : Slot) (value reason : String)
  | missingValue (slot : Slot)
  | repeated (slot : Slot)
  | unexpected (argument : String)
  | missing (what : String)
  deriving DecidableEq

/-- The first line that is said about the arguments. -/
def UsageError.message : UsageError → String
  | invalidValue slot value reason =>
    "error: invalid value '" ++ value ++ "' for '" ++ slot.usage ++ "': " ++ reason
  | missingValue slot =>
    "error: a value is required for '" ++ slot.usage ++ "' but none was supplied"
  | repeated slot => "error: the argument '" ++ slot.usage ++ "' cannot be used multiple times"
  | unexpected argument => "error: unexpected argument '" ++ argument ++ "' found"
  | missing what => "error: the following required arguments were not provided:\n  " ++ what

/-- What the program is asked to do. -/
inductive Command where
  | probe (file : String) (session : Option (Int × Int)) (duration : Option Float)
  | config
  deriving DecidableEq

/-- A request. -/
inductive Request where
  | run (config : String) (logLevel : Option LogLevel) (command : Command)
  | version
  | help
  deriving DecidableEq

/-- Where the settings are unless another file is named. -/
def defaultConfig : String := ".config/vts.toml"

/-- Seconds since 1970, as a whole number or as an RFC 3339 timestamp. -/
def timestamp (text : String) : Except String Int :=
  match Decimal.int64? text.toList with
  | some seconds => .ok seconds
  | none => (Calendar.parse text).mapError fun e =>
    "expected epoch seconds or RFC 3339 timestamp: " ++ e.message

namespace Given

/-- Whether a slot has its value. -/
def has (g : Given) : Slot → Bool
  | .config => g.config.isSome
  | .logLevel => g.logLevel.isSome
  | .file => g.file.isSome
  | .sessionStart => g.sessionStart.isSome
  | .sessionStop => g.sessionStop.isSome
  | .duration => g.duration.isSome

/-- Checks a value and puts it into its slot, once. -/
def put (g : Given) (slot : Slot) (value : String) : Except UsageError Given :=
  if g.has slot then .error (.repeated slot)
  else match slot with
    | .config =>
      if value = "" then .error (.missingValue slot) else .ok { g with config := some value }
    | .file => if value = "" then .error (.missingValue slot) else .ok { g with file := some value }
    | .logLevel =>
      match LogLevel.ofWord? value with
      | some level => .ok { g with logLevel := some level }
      | none => .error (.invalidValue slot value (LogLevel.unknownMessage value))
    | .sessionStart =>
      match timestamp value with
      | .ok t => .ok { g with sessionStart := some t }
      | .error reason => .error (.invalidValue slot value reason)
    | .sessionStop =>
      match timestamp value with
      | .ok t => .ok { g with sessionStop := some t }
      | .error reason => .error (.invalidValue slot value reason)
    | .duration =>
      match Decimal.double value with
      | .ok x => .ok { g with duration := some x }
      | .error e => .error (.invalidValue slot value e.message)

end Given

/-! ## Levels -/

/-- What an option does. -/
inductive Effect where
  | value (slot : Slot)
  | help
  | version
  deriving DecidableEq

/-- The program and its subcommands. -/
inductive Level where
  | top
  | probe
  | config
  deriving DecidableEq

namespace Level

/-- Options by their long name. -/
def long? (l : Level) (name : String) : Option Effect :=
  if name = "help" then some .help
  else match l with
    | top =>
      if name = "config" then some (.value .config)
      else if name = "log-level" then some (.value .logLevel)
      else if name = "version" then some .version
      else none
    | probe =>
      if name = "session-start" then some (.value .sessionStart)
      else if name = "session-end" then some (.value .sessionStop)
      else if name = "duration" then some (.value .duration)
      else none
    | config => none

/-- Options by their letter. -/
def short? (l : Level) (letter : Char) : Option Effect :=
  if letter = 'h' then some .help
  else if l = top ∧ letter = 'c' then some (.value .config)
  else if l = top ∧ letter = 'V' then some .version
  else none

/-- The subcommand of a name. -/
def subcommand? (l : Level) (name : String) : Option Level :=
  if l = top ∧ name = "probe" then some probe
  else if l = top ∧ name = "config" then some config
  else none

end Level

/-- A value that is not checked yet, or an option that still waits for its value. -/
structure Pending where
  slot : Slot
  value : Option String
  deriving DecidableEq

/-- How far the arguments of a level are read. -/
structure Progress where
  given : Given := {}
  pending : Option Pending := none
  /-- Whether everything that follows is a file. -/
  filesOnly : Bool := false
  /-- Whether the level has its file. -/
  fileTaken : Bool := false

namespace Progress

/-- Checks the value that is pending. -/
def settle (p : Progress) : Except UsageError Progress :=
  match p.pending with
  | none => .ok p
  | some ⟨slot, none⟩ => .error (.missingValue slot)
  | some ⟨slot, some value⟩ =>
    (p.given.put slot value).map fun given => { p with given, pending := none }

/-- The slot of an option that still waits for its value. -/
def awaiting? (p : Progress) : Option Slot :=
  match p.pending with
  | some ⟨slot, none⟩ => some slot
  | _ => none

/-- An option with its value, or one that takes the next argument. -/
def option (p : Progress) (slot : Slot) (value : Option String) : Except UsageError Progress := do
  let p ← p.settle
  match value with
  | some value => return { p with given := ← p.given.put slot value }
  | none => return { p with pending := some ⟨slot, none⟩ }

/-- A file; a level takes at most one. -/
def file (p : Progress) (l : Level) (argument : String) : Except UsageError Progress :=
  if l = .probe ∧ !p.fileTaken then
    p.settle.map fun p => { p with pending := some ⟨.file, some argument⟩, fileTaken := true }
  else .error (.unexpected argument)

end Progress

/-- What one argument leads to. -/
inductive Step where
  | go (p : Progress)
  | stop (r : Request)

/-- An option by its long name, with the value after an equals sign. -/
def longOption (l : Level) (p : Progress) (argument : String) (body : List Char) :
    Except UsageError Step :=
  let name := String.ofList (body.takeWhile (· != '='))
  let value := match body.dropWhile (· != '=') with
    | [] => none
    | _ :: rest => some (String.ofList rest)
  match l.long? name, value with
  | none, _ => .error (.unexpected argument)
  | some (.value slot), value => (p.option slot value).map .go
  | some _, some _ => .error (.unexpected argument)
  | some .help, none => p.settle.map fun _ => .stop .help
  | some .version, none => p.settle.map fun _ => .stop .version

/-- An option by its letter, with the value right after it. -/
def shortOption (l : Level) (p : Progress) (argument : String) (letter : Char)
    (rest : List Char) : Except UsageError Step :=
  match l.short? letter with
  | none => .error (.unexpected argument)
  | some (.value slot) =>
    let value := match rest with
      | [] => none
      | '=' :: value => some (String.ofList value)
      | value => some (String.ofList value)
    (p.option slot value).map .go
  | some .help => p.settle.map fun _ => .stop .help
  | some .version => p.settle.map fun _ => .stop .version

/-- One argument that is no subcommand. -/
def argument (l : Level) (p : Progress) (arg : String) : Except UsageError Step :=
  if p.filesOnly then (p.file l arg).map .go
  else match arg.toList, p.awaiting? with
    | ['-', '-'], _ => .ok (.go { p with filesOnly := true })
    | '-' :: '-' :: body, _ => longOption l p arg body
    | '-' :: letter :: rest, _ => shortOption l p arg letter rest
    | _, some slot => .ok (.go { p with pending := some ⟨slot, some arg⟩ })
    | _, none => (p.file l arg).map .go

/-- What a probe was given: its file, and both bounds of the session or neither. -/
def probeCommand (g : Given) : Except UsageError Command :=
  match g.file, g.sessionStart, g.sessionStop with
  | none, _, _ => .error (.missing Slot.file.usage)
  | some _, some _, none => .error (.missing Slot.sessionStop.usage)
  | some _, none, some _ => .error (.missing Slot.sessionStart.usage)
  | some file, some start, some stop => .ok (.probe file (some (start, stop)) g.duration)
  | some file, none, none => .ok (.probe file none g.duration)

/-- The arguments of a subcommand: a command, or another request in between. -/
def subcommand (l : Level) : Progress → List String → Except UsageError (Command ⊕ Request)
  | p, [] => do
    let p ← p.settle
    if l = .probe then (probeCommand p.given).map .inl else return .inl .config
  | p, arg :: rest =>
    match argument l p arg with
    | .error e => .error e
    | .ok (.stop r) => .ok (.inr r)
    | .ok (.go p) => subcommand l p rest

/-- What follows the word that asks for help: nothing or one subcommand. -/
def helpFor : List String → Except UsageError Request
  | [] => .ok .help
  | name :: rest =>
    if name ∈ ["probe", "config", "help"] then
      match rest with
      | [] => .ok .help
      | other :: _ => .error (.unexpected other)
    else .error (.unexpected name)

/-- The arguments of the program. The values of its own options are checked after those of the
subcommand. -/
def request : Progress → List String → Except UsageError Request
  | p, [] => do
    let _ ← p.settle
    throw (.missing "<COMMAND>")
  | p, arg :: rest =>
    let wantsCommand := !p.filesOnly && p.awaiting?.isNone
    if wantsCommand ∧ arg = "help" then helpFor rest
    else match if wantsCommand then Level.top.subcommand? arg else none with
      | some l => do
        match ← subcommand l {} rest with
        | .inr r => return r
        | .inl command =>
          let p ← p.settle
          return .run (p.given.config.getD defaultConfig) p.given.logLevel command
      | none =>
        match argument .top p arg with
        | .error e => .error e
        | .ok (.stop r) => .ok r
        | .ok (.go p) => request p rest

/-- What the arguments ask for. -/
def parse (args : List String) : Except UsageError Request := request {} args

end VideoSync.Cli
