import VideoSync.Sync.Run

/-
  An order for the moves of a run. A load goes on as far as it gets as soon as it can; only the
  reading of files can be held back for a while. After every event the loads that wait for the
  duration look again, the oldest first.
-/

namespace VideoSync.Sync

/-- A run whose file reads can be held back. -/
structure Schedule where
  run : Run
  holding : Bool := false
  deriving DecidableEq

/-- What happens from outside. -/
inductive Event where
  /-- A load begins; `hold` holds file reads back from now on, if the video is in a file. -/
  | load (asset : Asset) (hold : Bool)
  /-- File reads are held back no longer. -/
  | release
  | advance (milliseconds : Nat)
  | act (action : Action)
  deriving DecidableEq

/-- What an event answers. -/
inductive Answer where
  | none
  /-- The number of a load. -/
  | number (n : Nat)
  /-- Whether a request was honoured. -/
  | honoured (b : Bool)
  deriving DecidableEq

/-- Whether the bytes have to be read from a file. -/
def AssetSource.isFile : AssetSource → Bool
  | .file _ => true
  | .memory _ => false

/-- The reads of all loads in flight, the oldest first. -/
def Run.readAll (run : Run) : Run :=
  run.inFlight.foldl (fun run l => run.read World.reaction l.number) run

/-- All loads in flight look again, the oldest first. -/
def Run.lookAll (run : Run) : Run :=
  run.inFlight.foldl (fun run l => run.look World.reaction l.number) run

namespace Schedule

/-- A load begins and goes on unless its file read is held back. -/
def load (s : Schedule) (asset : Asset) (hold : Bool) : Schedule :=
  let holding := s.holding || (hold && asset.source.isFile)
  let run := s.run.begin World.reaction asset
  { run := if asset.source.isFile && holding then run else run.read World.reaction s.run.begun
    holding }

/-- What an event leads to before the waiting loads look again. -/
def handle (s : Schedule) : Event → Schedule × Answer
  | .load asset hold => (s.load asset hold, .number s.run.begun)
  | .release => ({ run := s.run.readAll }, .none)
  | .advance milliseconds =>
    ({ s with run := s.run.move World.reaction (.advance milliseconds) }, .none)
  | .act a =>
    let (run, result) := s.run.act World.reaction a
    ({ s with run }, result.elim .none .honoured)

/-- An event happens, and then the waiting loads look again. -/
def step (s : Schedule) (e : Event) : Schedule × Answer :=
  let (s, answer) := s.handle e
  ({ s with run := s.run.lookAll }, answer)

end Schedule
end VideoSync.Sync
