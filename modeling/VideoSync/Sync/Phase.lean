/-
  The phases of a sync controller.
-/

namespace VideoSync.Sync

/-- Where a controller stands with its video. -/
inductive Phase where
  | idle
  | loading
  | ready
  | error
  deriving DecidableEq, Repr, Inhabited

namespace Phase

/-- All phases. -/
def all : List Phase := [idle, loading, ready, error]

/-- The written name. -/
def name : Phase → String
  | idle => "idle"
  | loading => "loading"
  | ready => "ready"
  | error => "error"

end Phase
end VideoSync.Sync
