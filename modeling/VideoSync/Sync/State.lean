import VideoSync.Sync.Phase
import VideoSync.Sync.Error

/-
  The state of a sync controller. The generation counts loads and detaches; a load that holds an
  older generation is stale.
-/

namespace VideoSync.Sync

/-- What a controller knows. -/
structure State where
  phase : Phase := .idle
  /-- The offset of the loaded video. -/
  offset : Option Float := none
  /-- Whether the user is scrubbing. -/
  seeking : Bool := false
  /-- How many loads and detaches there were. -/
  generation : Nat := 0
  /-- The name of the video. -/
  assetName : Option String := none
  /-- Why the last load failed. -/
  lastError : Option Error := none
  deriving DecidableEq

namespace State

/-- Whether changes of the media time reach the plot. -/
def isLive (s : State) : Bool := s.phase == .ready && !s.seeking

/-- The offset while live. -/
def liveOffset (s : State) : Option Float := if s.isLive then s.offset else none

theorem isLive_of_liveOffset {s : State} {offset : Float} (h : s.liveOffset = some offset) :
    s.isLive := by
  unfold liveOffset at h
  split at h
  · assumption
  · contradiction

/-- A load begins. -/
def beginLoad (s : State) (name : String) : State :=
  { phase := .loading, generation := s.generation + 1, assetName := some name }

/-- Everything in flight becomes stale. -/
def reset (s : State) : State := { generation := s.generation + 1 }

/-- The current load failed. -/
def failed (s : State) (e : Error) : State :=
  { s with phase := .error, offset := none, lastError := some e }

/-- The current load is done. -/
def ready (s : State) (offset : Float) : State :=
  { s with phase := .ready, offset := some offset, seeking := false }

/-- The user starts to scrub; only a ready controller cares. -/
def seekStarted (s : State) : State := if s.phase = .ready then { s with seeking := true } else s

/-- The user stops scrubbing. -/
def seekEnded (s : State) : State := if s.phase = .ready then { s with seeking := false } else s

end State
end VideoSync.Sync
