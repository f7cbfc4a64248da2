import VideoSync.Storage.Path
import VideoSync.Text.Utf8

/-
  Videos to load.
-/

namespace VideoSync.Sync

/-- Where the bytes of a video are. -/
inductive AssetSource where
  | file (path : String)
  | memory (bytes : Bytes)
  deriving DecidableEq

/-- A video with its declared type. -/
structure Asset where
  name : String
  mime : String
  source : AssetSource
  deriving DecidableEq

/-- The video in a file, named after it. -/
def Asset.ofPath (path mime : String) : Asset where
  name := (Storage.Path.fileName? path).getD path
  mime := mime
  source := .file path

end VideoSync.Sync
