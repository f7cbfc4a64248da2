import VideoSync.Storage.Tree
import VideoSync.Sync.Load

/-
  Runs of a controller. A run has any number of loads in flight and a clock that moves only when it
  is told to; every move either begins a load, lets one load in flight go on, lets time pass, or
  does something from outside. Loads in flight may go on in any order. How the hosts react to the
  calls of a move is an argument of the move.
-/

namespace VideoSync.Sync

open VideoSync.Storage (Tree Source)
open VideoSync.Container (Metadata readMetadata)

/-- What a load in flight waits for. -/
inductive Wait where
  /-- Its container, which is still to be read. -/
  | container (source : AssetSource)
  /-- The duration of the media, since a time on the clock. -/
  | duration (creation : Int) (since : Nat)
  deriving DecidableEq

/-- A load that has not ended. -/
structure InFlight where
  number : Nat
  generation : Nat
  wait : Wait
  deriving DecidableEq

/-- A controller with its hosts, the files that videos come from and the loads in flight, the oldest
first. Loads are numbered from zero. -/
structure Run where
  world : World
  files : Tree := {}
  clock : Nat := 0
  /-- How many loads have begun. -/
  begun : Nat := 0
  inFlight : List InFlight := []
  deriving DecidableEq

/-- What may happen next. -/
inductive Move where
  | begin (asset : Asset)
  /-- The container of a load is read. -/
  | read (number : Nat)
  /-- A load that waits for the duration looks again whether it is known. -/
  | look (number : Nat)
  | advance (milliseconds : Nat)
  | act (action : Action)
  deriving DecidableEq

/-- The metadata of a video's bytes. -/
def AssetSource.metadata (files : Tree) : AssetSource → Except Container.Error Metadata
  | .memory bytes => readMetadata (Source.memory bytes)
  | .file path =>
    match files.openSource path with
    | .error e => .error (.io e)
    | .ok source => readMetadata source

namespace Run

/-- The loads that ended, in the order in which they did. -/
def ended (run : Run) : List (Nat × Outcome) := run.world.log.filterMap (·.what.ended?)

/-- The load in flight with a number. -/
def find? (run : Run) (number : Nat) : Option InFlight :=
  run.inFlight.find? (·.number == number)

/-- The run with another world. -/
def withWorld (run : Run) (world : World) : Run := { run with world }

/-- Changes what a load in flight waits for. -/
def setWait (run : Run) (number : Nat) (wait : Wait) : Run :=
  { run with
    inFlight := run.inFlight.map fun l => if l.number = number then { l with wait } else l }

/-- A load has ended. -/
def conclude (run : Run) (l : InFlight) (outcome : Outcome) : Run :=
  { run with
    world := run.world.note (.load l.generation .pending) (.ended l.number outcome)
    inFlight := run.inFlight.filter (·.number != l.number) }

/-- A load has ended, or it stays in flight. -/
def settle (run : Run) (l : InFlight) : Option Outcome → Run
  | some o => run.conclude l o
  | none => run

/-- A load begins. It ends at once if its type cannot be played. -/
def begin (r : Reaction) (asset : Asset) (run : Run) : Run :=
  let state := run.world.state.beginLoad asset.name
  let l : InFlight := ⟨run.begun, state.generation, .container asset.source⟩
  let world := run.world.become (.load l.generation .pending) (.began asset) state
  let (world, outcome) := world.openMedia r l.generation asset
  { run with world, begun := run.begun + 1, inFlight := run.inFlight ++ [l] }.settle l outcome

/-- A load that waits for the duration looks again whether it is known. -/
def look (r : Reaction) (number : Nat) (run : Run) : Run :=
  match run.find? number with
  | some l@⟨_, generation, .duration creation since⟩ =>
    let (world, outcome) := run.world.lookAgain r generation creation (run.clock - since)
    (run.withWorld world).settle l outcome
  | _ => run

/-- The container of a load is read; if the load has to wait for the duration, it begins to wait
now. -/
def read (r : Reaction) (number : Nat) (run : Run) : Run :=
  match run.find? number with
  | some l@⟨_, generation, .container source⟩ =>
    let (world, progress) :=
      run.world.containerRead r generation (source.metadata run.files)
    let run := run.withWorld world
    match progress with
    | .ended o => run.conclude l o
    | .waiting creation => (run.setWait number (.duration creation run.clock)).look r number
  | _ => run

/-- Somebody does something from outside. -/
def act (r : Reaction) (a : Action) (run : Run) : Run × Option Bool :=
  let (world, result) := run.world.apply r a
  (run.withWorld world, result)

/-- One move of a run. A load that does not wait for what a move brings is left alone. -/
def move (r : Reaction) (run : Run) : Move → Run
  | .begin asset => run.begin r asset
  | .read number => run.read r number
  | .look number => run.look r number
  | .advance milliseconds => { run with clock := run.clock + milliseconds }
  | .act a => (run.act r a).1

end Run
end VideoSync.Sync
