import VideoSync.Sync.World

/-
  What a controller does apart from loading. Event handlers do nothing unless the controller is
  ready; between the start and the end of a scrub no cursor is moved. Each operation takes the
  reaction of the hosts as an argument, and `reaction` is the one that runs what is armed.
-/

namespace VideoSync.Sync.World

open VideoSync.Sync

/-- Moves the cursor to the media's current position while live. -/
def pushCursor (r : Reaction) (w : World) : World :=
  match w.state.liveOffset with
  | none => w
  | some offset =>
    let w := w.ask r .outside .currentTime fun h => .time h.time
    w.tell r .outside (.setCursor (w.hosts.time - offset))

/-- Handles an event of the media element. -/
def mediaEvent (r : Reaction) (e : MediaEvent) (w : World) : World :=
  match e with
  | .seekingStart => w.become .outside (.event e) w.state.seekStarted
  | .seekingEnd =>
    let w := w.become .outside (.event e) w.state.seekEnded
    if w.state.phase = .ready then w.pushCursor r else w
  | .timeProgressed => (w.note .outside (.event e)).pushCursor r

/-- Moves the video to a session-relative time. Only a live controller with paused media does so;
the answer says whether it did. -/
def requestSeek (r : Reaction) (seconds : Float) (w : World) : World × Bool :=
  match w.state.liveOffset with
  | none => (w, false)
  | some offset =>
    let w := w.ask r .outside .paused fun h => .paused h.paused
    if w.hosts.paused then (w.setCurrentTime r .outside (seconds + offset), true) else (w, false)

/-- Handles a seek request of a plot element, which has to be bound. -/
def plotEvent (r : Reaction) (element : String) (seconds : Float) (w : World) : World × Bool :=
  match w.bindings.handler? element with
  | some .seekVideo => w.requestSeek r seconds
  | none => (w, false)

/-- Tears the controller down; loads in flight become stale. -/
def detach (w : World) : World := w.become .outside .detached w.state.reset

/-- Does an action; requests have an answer. -/
def apply (r : Reaction) (a : Action) (w : World) : World × Option Bool :=
  match a with
  | .media e => (w.mediaEvent r e, none)
  | .seek seconds => (w.requestSeek r seconds).map id some
  | .plot element seconds => (w.plotEvent r element seconds).map id some
  | .detach => (w.detach, none)
  | .setDuration seconds => (w.withHosts { w.hosts with duration := seconds }, none)
  | .setPaused paused => (w.withHosts { w.hosts with paused }, none)
  | .setTime seconds => (w.withHosts { w.hosts with time := seconds }, none)
  | .setPlayable types => (w.withHosts { w.hosts with playable := types }, none)
  | .setSession session => (w.withHosts { w.hosts with session }, none)
  | .arm on action => (w.withArmed (w.armed ++ [⟨on, action⟩]), none)

/-- Reacts to a call by the action armed first for its method, at most `depth` reactions deep. -/
def react : (depth : Nat) → Reaction
  | 0, _, w => w
  | depth + 1, m, w =>
    match takeArmed m w.armed with
    | none => w
    | some (action, rest) =>
      let (w, result) := apply (react depth) action (w.withArmed rest)
      w.note .outside (.reacted m result)

/-- How deep reactions can go: each uses up an armed action, and what it arms weighs less. -/
def depth (w : World) : Nat := totalWeight w.armed

/-- The reaction that runs what is armed. -/
def reaction : Reaction := fun m w => react w.depth m w

end VideoSync.Sync.World
