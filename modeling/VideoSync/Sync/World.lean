import VideoSync.Settings.Basic
import VideoSync.Sync.Asset
import VideoSync.Sync.Binding
import VideoSync.Sync.State

/-
  A controller among its hosts: a media element, a plot, a source of session times and a reporter of
  errors. Everything that happens is written into a log: the changes of the controller's state, the
  calls of the hosts and what they return. A host may react to a call by doing something to the
  controller before the call returns. Reactions are armed beforehand, so that a run is a function of
  the world it starts in.
-/

namespace VideoSync.Sync

open VideoSync.Timeline (Session)

/-- What can be asked of the hosts. -/
inductive Method where
  | load
  | unload
  | currentTime
  | setCurrentTime
  | duration
  | paused
  | canPlayType
  | setCursor
  | sessionTimeline
  | report
  deriving DecidableEq, Repr

/-- Events of the media element. -/
inductive MediaEvent where
  | seekingStart
  | seekingEnd
  | timeProgressed
  deriving DecidableEq, Repr

/-- What anybody may do at any moment, also from inside a host call: send events and requests to the
controller, detach it, change what the hosts answer, or arm a reaction. -/
inductive Action where
  | media (event : MediaEvent)
  | seek (seconds : Float)
  | plot (element : String) (seconds : Float)
  | detach
  | setDuration (seconds : Option Float)
  | setPaused (paused : Bool)
  | setTime (seconds : Float)
  | setPlayable (types : List String)
  | setSession (session : Session)
  | arm (on : Method) (action : Action)
  deriving DecidableEq

/-- How many actions an action can lead to. -/
def Action.weight : Action → Nat
  | arm _ action => action.weight + 1
  | _ => 1

/-- An action that waits for the next call of a method. -/
structure Armed where
  on : Method
  action : Action
  deriving DecidableEq

/-- How many actions all the armed ones can lead to. -/
def totalWeight : List Armed → Nat
  | [] => 0
  | a :: rest => a.action.weight + totalWeight rest

/-- A call of a host, or a host's reaction to one with the answer that its request got. -/
inductive Call where
  | load (name : String)
  | unload
  | setCurrentTime (seconds : Float)
  | setCursor (seconds : Float)
  | report (text : String)
  | asked (method : Method)
  | reaction (on : Method) (result : Option Bool)
  deriving DecidableEq

/-- The method that a call is of. -/
def Call.method : Call → Method
  | load _ => .load
  | unload => .unload
  | setCurrentTime _ => .setCurrentTime
  | setCursor _ => .setCursor
  | report _ => .report
  | asked m => m
  | reaction m _ => m

/-- What a host call returns. -/
inductive Reply where
  | done
  | time (seconds : Float)
  | duration (seconds : Option Float)
  | paused (answer : Bool)
  | playable (answer : Bool)
  | session (session : Session)
  deriving DecidableEq

/-- How a load ended. -/
inductive Outcome where
  /-- The video overlaps the session and is synced. -/
  | ready (a : Timeline.Alignment)
  /-- The video is synced although it misses the session. -/
  | readyWithoutOverlap (a : Timeline.Alignment)
  /-- A newer load or a detach came in between. -/
  | superseded
  | failed (e : Error)
  deriving DecidableEq

/-- How far a load is with the state of the controller. -/
inductive Stage where
  /-- It has stored nothing yet. -/
  | pending
  | failed
  | ready
  deriving DecidableEq, Repr

/-- Who makes something happen: the load with a generation, or whoever sends events and requests. -/
inductive Actor where
  | load (generation : Nat) (stage : Stage)
  | outside
  deriving DecidableEq

/-- What can happen. -/
inductive Happening where
  /-- A load begins. -/
  | began (asset : Asset)
  /-- A load stores its error. -/
  | failed (e : Error)
  /-- A load stores its offset; a warning is still to be reported. -/
  | ready (offset : Float) (warning : Option Error)
  | event (e : MediaEvent)
  | detached
  | called (c : Call)
  | returned (m : Method) (reply : Reply)
  /-- A host reacted to a call; a request that it made got an answer. -/
  | reacted (on : Method) (result : Option Bool)
  /-- A load returns to whoever began it. -/
  | ended (number : Nat) (outcome : Outcome)
  deriving DecidableEq

/-- Something that happened. -/
structure Entry where
  actor : Actor
  what : Happening
  /-- The state of the controller from then on. -/
  state : State
  deriving DecidableEq

/-- What the hosts answer. -/
structure Hosts where
  time : Float := 0.0
  duration : Option Float := none
  paused : Bool := true
  playable : List String := ["video/mp4", "video/quicktime"]
  session : Session
  deriving DecidableEq

/-- A controller with its hosts and the log of all that happened, the oldest entry first. -/
structure World where
  settings : SyncSettings := {}
  bindings : BindingTable := {}
  state : State := {}
  hosts : Hosts
  armed : List Armed := []
  log : List Entry := []
  deriving DecidableEq

/-- How a host reacts to a call of a method. -/
abbrev Reaction := Method → World → World

/-- The action armed first for a method, and the others. -/
def takeArmed (m : Method) : List Armed → Option (Action × List Armed)
  | [] => none
  | a :: rest =>
    if a.on = m then some (a.action, rest)
    else (takeArmed m rest).map fun (action, others) => (action, a :: others)

/-- The call that an entry records. -/
def Happening.call? : Happening → Option Call
  | called c => some c
  | reacted m result => some (.reaction m result)
  | _ => none

/-- The load that an entry ends, with its outcome. -/
def Happening.ended? : Happening → Option (Nat × Outcome)
  | ended number outcome => some (number, outcome)
  | _ => none

namespace World

/-- The calls of the hosts, the first call first. -/
def calls (w : World) : List Call := w.log.filterMap (·.what.call?)

/-- The world with another answer of the hosts. -/
def withHosts (w : World) (h : Hosts) : World := { w with hosts := h }

/-- The world with other reactions armed. -/
def withArmed (w : World) (armed : List Armed) : World := { w with armed }

/-- Writes into the log what somebody does. -/
def note (w : World) (who : Actor) (what : Happening) : World :=
  { w with log := w.log ++ [⟨who, what, w.state⟩] }

/-- Somebody changes the state of the controller. -/
def become (w : World) (who : Actor) (what : Happening) (s : State) : World :=
  { w with state := s }.note who what

/-- Calls a host, which may react before it answers. -/
def callHost (r : Reaction) (who : Actor) (c : Call) (reply : Hosts → Reply) (w : World) : World :=
  let w := r c.method (w.note who (.called c))
  w.note who (.returned c.method (reply w.hosts))

/-- Asks a host; what it answers is looked up after its reaction. -/
def ask (r : Reaction) (who : Actor) (m : Method) (reply : Hosts → Reply) (w : World) : World :=
  w.callHost r who (.asked m) reply

/-- Tells a host to do something. -/
def tell (r : Reaction) (who : Actor) (c : Call) (w : World) : World :=
  w.callHost r who c fun _ => .done

/-- Moves the media element. -/
def setCurrentTime (r : Reaction) (who : Actor) (seconds : Float) (w : World) : World :=
  (w.withHosts { w.hosts with time := seconds }).tell r who (.setCurrentTime seconds)

end World
end VideoSync.Sync
