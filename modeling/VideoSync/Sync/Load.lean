import VideoSync.Container.Movie
import VideoSync.Sync.Controller

/-
  Loading a video. A load is suspended while its container is read, and again while the duration of
  the media is not known. A newer load or a detach makes it stale; it then ends without touching
  anything.
-/

namespace VideoSync.Sync

open VideoSync.Timeline (align)
open VideoSync.Container (Metadata)

/-- How far a load is once its container was read. -/
inductive Progress where
  | ended (o : Outcome)
  /-- It waits for the duration of the media. -/
  | waiting (creation : Int)
  deriving DecidableEq

/-- A duration that media can have. -/
def validDuration (seconds : Float) : Except Error Float :=
  if !seconds.isFinite || seconds < 0.0 then .error (.invalidDuration seconds) else .ok seconds

namespace World

/-- Whether a load is the newest and the controller was not detached since. -/
def isCurrent (w : World) (generation : Nat) : Bool := w.state.generation == generation

/-- Ends a load with an error, which is stored and reported unless the load is stale. -/
def fail (r : Reaction) (generation : Nat) (e : Error) (w : World) : World × Outcome :=
  if w.isCurrent generation then
    let who : Actor := .load generation .failed
    let w := w.become who (.failed e) (w.state.failed e)
    ((w.tell r who .unload).tell r who (.report e.message), .failed e)
  else (w, .superseded)

/-- Reports a warning, if there is one. -/
def warn (r : Reaction) (who : Actor) (warning : Option Error) (w : World) : World :=
  match warning with
  | some e => w.tell r who (.report e.message)
  | none => w

/-- Moves media and cursor to the start of the session, if the settings say so. -/
def seekToStart (r : Reaction) (who : Actor) (a : Timeline.Alignment) (duration : Float)
    (w : World) : World :=
  if w.settings.seekToSessionStart then
    let position := a.initialPosition duration
    (w.setCurrentTime r who position).tell r who (.setCursor (a.telemetryTime position))
  else w

/-- Commits an alignment unless the load is stale. A warning is reported after that. -/
def enterReady (r : Reaction) (generation : Nat) (a : Timeline.Alignment) (duration : Float)
    (warning : Option Error) (w : World) : World × Outcome :=
  if w.isCurrent generation then
    let who : Actor := .load generation .ready
    let w := w.become who (.ready a.offset warning) (w.state.ready a.offset)
    ((w.warn r who warning).seekToStart r who a duration,
      if a.overlaps then .ready a else .readyWithoutOverlap a)
  else (w, .superseded)

/-- The last stage: aligns a video of known duration with the session on screen. -/
def finish (r : Reaction) (generation : Nat) (creation : Int) (duration : Except Error Float)
    (w : World) : World × Outcome :=
  if !w.isCurrent generation then (w, .superseded)
  else match duration with
    | .error e => w.fail r generation e
    | .ok duration =>
      let w := w.ask r (.load generation .pending) .sessionTimeline fun h => .session h.session
      let session := w.hosts.session
      let a := align creation duration session
      if a.overlaps then w.enterReady r generation a duration none
      else match w.settings.overlapPolicy with
        | .reject => w.fail r generation (.ofAlignment a session)
        | .warn => w.enterReady r generation a duration (some (.ofAlignment a session))

/-- The first stage: a type that cannot be played fails at once, without the media being loaded. -/
def openMedia (r : Reaction) (generation : Nat) (asset : Asset) (w : World) :
    World × Option Outcome :=
  let who : Actor := .load generation .pending
  let w := w.ask r who .canPlayType fun h => .playable (h.playable.contains asset.mime)
  if w.hosts.playable.contains asset.mime then (w.tell r who (.load asset.name), none)
  else (w.fail r generation (.unsupportedMediaType asset.mime)).map id some

/-- The second stage: the container was read. If the media knows its duration the load goes on. -/
def containerRead (r : Reaction) (generation : Nat) (result : Except Container.Error Metadata)
    (w : World) : World × Progress :=
  if !w.isCurrent generation then (w, .ended .superseded)
  else match result with
    | .error e => (w.fail r generation (.ofContainer e)).map id .ended
    | .ok metadata =>
      let w := w.ask r (.load generation .pending) .duration fun h => .duration h.duration
      match w.hosts.duration with
      | some seconds =>
        (w.finish r generation metadata.creation (validDuration seconds)).map id .ended
      | none => (w, .waiting metadata.creation)

/-- Looks again at a load that has waited for the duration: a known duration wins, and after the
timeout there is none. -/
def lookAgain (r : Reaction) (generation : Nat) (creation : Int) (waited : Nat) (w : World) :
    World × Option Outcome :=
  match w.hosts.duration with
  | some seconds => (w.finish r generation creation (validDuration seconds)).map id some
  | none =>
    let timeout := w.settings.metadataTimeout
    if timeout.toNat ≤ waited then
      (w.finish r generation creation (.error (.durationUnavailable timeout))).map id some
    else (w, none)

end World
end VideoSync.Sync
