namespace BoundedCache

inductive Error where
  | invalidCapacity
  | listenerPanicked (detail : String)
  | invariant (detail : String)
  deriving DecidableEq, Repr

def Error.message : Error → String
  | .invalidCapacity => "maximum weighted capacity must be greater than zero"
  | .listenerPanicked detail => "eviction listener panicked: " ++ detail
  | .invariant detail => "invariant violated: " ++ detail

end BoundedCache
