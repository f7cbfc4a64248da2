import VideoSync.Container.Box
import VideoSync.Storage.Failure
import VideoSync.Decimal.Text

/-
  Why a container has no readable creation time: there is no movie, the boxes are malformed at some
  offset, or the source itself failed.
-/

namespace VideoSync.Container

open VideoSync.Decimal (natText)

/-- The pieces that a source can end inside of. -/
inductive Piece where
  | extendedSize
  | movieField
  deriving DecidableEq, Repr

/-- A piece in words. -/
def Piece.phrase : Piece → String
  | .extendedSize => "extended box size"
  | .movieField => "mvhd field"

/-- What is wrong with the boxes. -/
inductive Defect where
  | shortHeader (present : Nat)
  | truncated (piece : Piece)
  | undersized (tag : Tag) (size length : Nat)
  | endsInsideParent
  | overrunsParent (tag : Tag)
  | noMovieHeader
  | fieldPastEnd (stop : Nat)
  | unsupportedVersion (version : Nat)
  | creationOutOfRange (raw : Nat)
  /-- A defect that somebody else describes. -/
  | described (text : String)
  deriving DecidableEq, Repr

/-- A defect in words. -/
def Defect.message : Defect → String
  | shortHeader present =>
    "truncated box header (" ++ natText present ++ " of " ++ natText compactLength ++ " bytes)"
  | truncated piece => "truncated " ++ piece.phrase
  | undersized tag size length =>
    "box '" ++ tag.name ++ "' declares size " ++ natText size ++ " smaller than its "
      ++ natText length ++ "-byte header"
  | endsInsideParent => "source ends inside its parent box"
  | overrunsParent tag => "box '" ++ tag.name ++ "' overruns its parent"
  | noMovieHeader => "'moov' box has no 'mvhd' header"
  | fieldPastEnd stop => "mvhd field extends past the box end at " ++ natText stop
  | unsupportedVersion version => "unsupported mvhd version " ++ natText version
  | creationOutOfRange raw => "creation time " ++ natText raw ++ " out of range"
  | described text => text

/-- Why a container could not be read. -/
inductive Error where
  | metadataNotFound
  | malformed (offset : Nat) (defect : Defect)
  | io (failure : Storage.Failure)
  deriving DecidableEq, Repr

namespace Error

/-- The error in words. -/
def message : Error → String
  | metadataNotFound => "No movie metadata found in container"
  | malformed offset defect =>
    "Malformed container at byte " ++ natText offset ++ ": " ++ defect.message
  | io failure => "Failed to read container: " ++ failure.text

/-- A failed exact read: the end of the source makes the piece truncated. -/
def ofRead (offset : Nat) (piece : Piece) (failure : Storage.Failure) : Error :=
  if failure.kind = .unexpectedEnd then malformed offset (.truncated piece) else io failure

end Error
end VideoSync.Container
