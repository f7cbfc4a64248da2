import VideoSync.Width

/-
  A telemetry session and a video on one clock. Session-relative time `t` and video-relative time
  `v` are related by `v = t + offset`. Times on the clock are whole seconds in 64 bits, and so are
  their differences: one that needs more bits starts over at the other end of the range.
-/

namespace VideoSync.Timeline

/-- The interval of a telemetry session, in seconds since 1970. -/
structure Session where
  start : Int
  stop : Int
  deriving DecidableEq, Repr

/-- How long a session lasts, as a difference in 64 bits. -/
def Session.duration (s : Session) : Int := Width.wrapped 64 (s.stop - s.start)

theorem Session.duration_eq {s : Session} (h : Width.signed 64 (s.stop - s.start)) :
    s.duration = s.stop - s.start :=
  Width.wrapped_of_signed h

/-- How a video lies relative to a session. -/
structure Alignment where
  /-- Session start minus video creation time, in seconds. -/
  offset : Float
  /-- Whether the intervals intersect. -/
  overlaps : Bool
  /-- Start of the video in seconds since 1970. -/
  mediaStart : Int
  /-- End of the video in seconds since 1970. -/
  mediaStop : Float
  deriving DecidableEq

/-- The greater of two numbers, and the second one of two zeros; NaN gives way to the other. -/
def larger (a b : Float) : Float := if b.isNaN then a else if b < a then a else b

/-- The lesser of two numbers, and the second one of two zeros; NaN gives way to the other. -/
def smaller (a b : Float) : Float := if b.isNaN then a else if a < b then a else b

namespace Alignment

/-- Video-relative seconds of a session-relative time. -/
def videoTime (a : Alignment) (sessionSeconds : Float) : Float := sessionSeconds + a.offset

/-- Session-relative seconds of a video-relative time. -/
def telemetryTime (a : Alignment) (videoSeconds : Float) : Float := videoSeconds - a.offset

/-- The video position of the session start, moved into the media. -/
def initialPosition (a : Alignment) (duration : Float) : Float :=
  smaller (larger a.offset 0.0) (larger duration 0.0)

end Alignment

/-- Aligns a video with a session. Both comparisons are strict: intervals that only touch do not
overlap. The offset is a difference in 64 bits. -/
def align (creation : Int) (duration : Float) (session : Session) : Alignment :=
  let mediaStop := Float.ofInt creation + duration
  { offset := Float.ofInt (Width.wrapped 64 (session.start - creation))
    overlaps := decide (Float.ofInt session.start < mediaStop ∧ creation < session.stop)
    mediaStart := creation
    mediaStop }

theorem offset_align {creation : Int} {session : Session}
    (h : Width.signed 64 (session.start - creation)) (duration : Float) :
    (align creation duration session).offset = Float.ofInt (session.start - creation) :=
  congrArg Float.ofInt (Width.wrapped_of_signed h)

end VideoSync.Timeline
