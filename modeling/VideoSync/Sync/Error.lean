import VideoSync.Container.Error
import VideoSync.Timeline.Alignment

/-
  Why a video could not be loaded, in the words that the user sees.
-/

namespace VideoSync.Sync

open VideoSync.Timeline (Session)
open VideoSync.Decimal (intText natText plain)

/-- Why a load failed, or what was reported about a video that misses the session. -/
inductive Error where
  | unsupportedMediaType (mime : String)
  | metadataNotFound
  | malformedContainer (detail : String)
  | noOverlap (mediaStart : Int) (mediaStop : Float) (session : Session)
  deriving DecidableEq

namespace Error

/-- The error in words. -/
def message : Error → String
  | unsupportedMediaType mime => "Can't play this video type (" ++ mime ++ ")"
  | metadataNotFound => "Video creation time not found"
  | malformedContainer detail => "Malformed video: " ++ detail
  | noOverlap mediaStart mediaStop session =>
    "Video and session do not overlap (video " ++ intText mediaStart ++ ".." ++ plain mediaStop
      ++ ", session " ++ intText session.start ++ ".." ++ intText session.stop ++ ")"

/-- A video that misses a session. -/
def ofAlignment (a : Timeline.Alignment) (session : Session) : Error :=
  noOverlap a.mediaStart a.mediaStop session

/-- A container that could not be read. -/
def ofContainer : Container.Error → Error
  | .metadataNotFound => metadataNotFound
  | .malformed offset defect => malformedContainer (Container.Error.malformed offset defect).message
  | .io failure => malformedContainer ("read failed: " ++ failure.text)

/-- A duration that did not come in time. -/
def durationUnavailable (timeout : UInt64) : Error :=
  malformedContainer ("media duration unavailable after " ++ natText timeout.toNat ++ " ms")

/-- A duration that is none. -/
def invalidDuration (seconds : Float) : Error :=
  malformedContainer ("invalid media duration " ++ plain seconds)

/-- Two errors say the same; as numbers go, NaN differs from itself and the zeros are equal. -/
def same : Error → Error → Bool
  | noOverlap a b s, noOverlap a' b' s' => a == a' && b == b' && s == s'
  | a, b => decide (a = b)

end Error
end VideoSync.Sync
