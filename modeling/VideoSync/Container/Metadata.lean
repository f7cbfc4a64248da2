import VideoSync.Calendar.Timestamp

/-
  What a container says about its movie: when it was created and, sometimes, how long it is.
-/

namespace VideoSync.Container

/-- Times of a movie, in seconds since 1970 and in seconds. -/
structure Metadata where
  creation : Int
  duration : Option Float := none
  deriving DecidableEq

namespace Metadata

/-- The same movie with a known duration. -/
def withDuration (m : Metadata) (seconds : Float) : Metadata := { m with duration := some seconds }

/-- The creation time as text, where its year has one. -/
def createdAt? (m : Metadata) : Option String := Calendar.render? m.creation

end Metadata
end VideoSync.Container
