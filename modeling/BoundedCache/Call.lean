import BoundedCache.Event
import BoundedCache.Fault
import BoundedCache.Metrics

namespace BoundedCache

inductive Call where
  | get (key : Key)
  | getQuietly (key : Key)
  | contains (key : Key)
  | put (key : Key) (value : Value)
  | putIfAbsent (key : Key) (value : Value)
  | replace (key : Key) (value : Value)
  | remove (key : Key)
  | removeIf (key : Key) (expected : Value)
  | replaceIf (key : Key) (expected value : Value)
  | length
  | isEmpty
  | weightedSize
  | capacity
  | setCapacity (capacity : Nat)
  | clear
  | cleanUp
  | check
  | metrics
  | describe
  deriving DecidableEq, Repr

/-- Looks at private parts, or disturbs one of them the way a thread that was stopped half-way
would. -/
inductive Probe where
  | order
  | entries
  | pending
  | statuses
  /-- Drops a mapping; its node is neither retired nor unlinked. -/
  | unmap (key : Key)
  /-- Maps an unmapped key to a new node and records no event. -/
  | map (key : Key) (value : Value)
  /-- Maps a mapped key to a new node and records no event. -/
  | remap (key : Key) (value : Value)
  | rawCapacity (capacity : Nat)
  | notify (key : Key) (value : Value)
  | deliver
  /-- Retires the mapped node, leaving it mapped and linked. -/
  | retire (key : Key)
  | node (key : Key)
  | record (key : Key) (stripe : Nat) (kind : EventKind)
  | apply (key : Key) (kind : EventKind)
  | linkWeight (key : Key) (weight : Weight)
  deriving DecidableEq, Repr

/-- A row of insertions. The number of an insertion is appended to the stem to give the key and
stands for each pair of empty braces in the value. -/
structure Filling where
  stem : Key
  first : Nat
  last : Nat
  template : Value
  deriving DecidableEq, Repr

namespace Filling

def key (f : Filling) (i : Nat) : Key := f.stem ++ toString i

def value (f : Filling) (i : Nat) : Value := f.template.replace "\x7b\x7d" (toString i)

def numbers (f : Filling) : List Nat := List.range' f.first (f.last - f.first)

end Filling

inductive Op where
  | call (call : Call)
  | probe (probe : Probe)
  /-- Runs other operations in the middle of a call, where the call leaves a gap. -/
  | interrupted (call : Call) (meanwhile : List Op)
  /-- Runs operations while somebody else holds the eviction lock. -/
  | hold (ops : List Op)
  /-- Runs operations that wait until somebody else has released the eviction lock. -/
  | contended (ops : List Op)
  /-- Replays all events to nobody, running operations during the first of them. -/
  | discard (ops : List Op)
  | repeated (times : Nat) (ops : List Op)
  | fill (filling : Filling)

structure Place where
  key : Key
  weight : Weight
  slot : Slot
  deriving DecidableEq, Repr

/-- What an operation answers; `σ` is what is reported of the operations inside it. -/
inductive Answer (σ : Type) where
  | value (value : Option Value)
  | flag (flag : Bool)
  | count (count : Nat)
  | done
  | failed (error : Error)
  | refused (message : String)
  /-- The call waits for the eviction lock for ever. -/
  | blocked
  | missing
  | metrics (metrics : Metrics)
  | text (text : String)
  /-- None while the eviction lock is held. -/
  | order (places : Option (List Place))
  | entries (entries : List (Key × Option Value))
  | statuses (statuses : List Status)
  | steps (steps : List σ)
  | discarded (replayed : Nat) (steps : List σ)

inductive Act where
  | call (call : Call)
  | probe (probe : Probe)
  | block
  deriving DecidableEq, Repr

structure Step where
  act : Act
  answer : Answer Step
  length : Nat
  weightedSize : Nat
  meanwhile : Option (List Step) := none

end BoundedCache
