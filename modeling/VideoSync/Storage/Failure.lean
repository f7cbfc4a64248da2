/-
  Failures of the places that bytes come from and go to. A failure is a kind and a text; the
  operating system's failures have fixed texts.
-/

namespace VideoSync.Storage

/-- What sort of failure it is, as far as anything depends on it. -/
inductive FailureKind where
  | unexpectedEnd
  | permissionDenied
  | notFound
  | interrupted
  | other
  deriving DecidableEq, Repr

/-- A failed read, write or look-up. -/
structure Failure where
  kind : FailureKind
  text : String
  deriving DecidableEq, Repr

/-- Failures that the file system itself gives. -/
inductive SystemFailure where
  | noEntry
  | busy
  | fileExists
  | notDirectory
  | isDirectory
  | invalidArgument
  | nameTooLong
  deriving DecidableEq, Repr

namespace SystemFailure

/-- The system's number for a failure. -/
def code : SystemFailure → Nat
  | noEntry => 2
  | busy => 16
  | fileExists => 17
  | notDirectory => 20
  | isDirectory => 21
  | invalidArgument => 22
  | nameTooLong => 36

/-- The system's words for a failure. -/
def phrase : SystemFailure → String
  | noEntry => "No such file or directory"
  | busy => "Device or resource busy"
  | fileExists => "File exists"
  | notDirectory => "Not a directory"
  | isDirectory => "Is a directory"
  | invalidArgument => "Invalid argument"
  | nameTooLong => "File name too long"

/-- The failure with its text. -/
def failure (f : SystemFailure) : Failure where
  kind := if f = noEntry then .notFound else .other
  text := f.phrase ++ " (os error " ++ toString f.code ++ ")"

end SystemFailure

/-- A path with a zero byte names nothing. -/
def zeroByteInPath : Failure := ⟨.other, "file name contained an unexpected NUL byte"⟩

/-- Bytes that are not text. -/
def notText : Failure := ⟨.other, "stream did not contain valid UTF-8"⟩

/-- The end of a source inside an exact read. -/
def earlyEnd : Failure := ⟨.unexpectedEnd, "early eof"⟩

end VideoSync.Storage
