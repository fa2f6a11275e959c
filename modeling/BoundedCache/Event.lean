import BoundedCache.Pool

namespace BoundedCache

inductive EventKind where
  | read
  | add
  | update
  | remove
  deriving DecidableEq, Repr

structure Event where
  kind : EventKind
  node : NodeId
  deriving DecidableEq, Repr

inductive Status where
  | idle
  | required
  | processing
  deriving DecidableEq, Repr

def Status.name : Status → String
  | .idle => "Idle"
  | .required => "Required"
  | .processing => "Processing"

end BoundedCache
