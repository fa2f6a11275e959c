import BoundedCache.Call
import BoundedCache.Engine
import BoundedCache.Listener
import BoundedCache.Reservation

namespace BoundedCache

structure DrainRecord extends Outcome where
  weightedSize : Nat
  capacity : Nat
  deriving DecidableEq, Repr

/-- An engine behind its eviction lock. A call that needs the lock and finds it held goes on without
a drain or waits; one that waits for ever answers `Reply.blocked`. -/
structure Cache where
  engine : Engine
  relay : Relay (Listener (List Op)) (List Step)
  weigher : Weigher
  capacity : Nat
  /-- The eviction lock is held by somebody else. -/
  lockHeld : Bool := false
  /-- The weighted size as of the last drain. -/
  published : Nat := 0
  counters : Counters := {}
  drains : List DrainRecord := []

/-- Hands queued notifications to the listener. Gives the number of calls. -/
abbrev Courier := Cache → Nat × Cache

def Courier.busy : Courier := fun c => (0, c)

inductive Reply (α : Type) where
  | returned (result : α)
  | refused (message : String)
  | blocked

instance : Buffered Cache where
  buffers c := c.engine.buffers
  setBuffers b c := { c with engine := { c.engine with buffers := b } }
  buffers_setBuffers _ _ := rfl

instance : Relaying Cache (Listener (List Op)) (List Step) where
  relay c := c.relay
  setRelay r c := { c with relay := r }
  relay_setRelay _ _ := rfl

structure Settings where
  capacity : Nat
  concurrency : Nat := 16
  expected : Nat := 16
  touchOnUpdate : Bool := true
  /-- The number of the thread that makes the calls, from which its buffer follows. -/
  thread : Nat := 0
  weigher : Weigher := Weigher.unit
  listener : Option (Listener (List Op)) := none

namespace Settings

def bufferRoom : Nat := 128

inductive Obstacle where
  | invalid (error : Error)
  | noRoom
  deriving DecidableEq, Repr

/-- Whether room for the expected entries can be reserved. The store has four tables for each
buffer. -/
def reservable (s : Settings) : Bool :=
  Reservation.tableFits (Reservation.share s.expected (4 * stripeCount s.concurrency)) &&
    Reservation.dequeFits s.expected

def empty (s : Settings) : Cache where
  engine := {
    buffers := Buffers.ofLevel s.concurrency bufferRoom s.thread
    touchOnUpdate := s.touchOnUpdate }
  relay := Relay.ofListener s.listener
  weigher := s.weigher
  capacity := s.capacity

/-- The empty cache, unless the settings are invalid. A capacity of zero is invalid; it is looked at
before any room is reserved. -/
def build (s : Settings) : Except Obstacle Cache :=
  if s.capacity = 0 then .error (.invalid .invalidCapacity)
  else if s.reservable then .ok s.empty
  else .error .noRoom

end Settings

namespace Cache

/-- Number of mappings, those of retired nodes included. -/
def length (c : Cache) : Nat := c.engine.store.size

def isEmpty (c : Cache) : Bool := c.length == 0

def metrics (c : Cache) : Metrics :=
  { c.counters with
    listenerFailures := c.relay.failures
    weightedSize := c.published
    capacity := c.capacity
    entryCount := c.length }

def describe (c : Cache) : String :=
  s!"Cache \x7b len: {c.length}, weighted_size: {c.published}, capacity: {c.capacity}" ++
    ", buffers: " ++ toString c.engine.buffers.count ++ " \x7d"

def step (c : Cache) (act : Act) (answer : Answer Step) (meanwhile : Option (List Step)) : Step :=
  { act, answer, length := c.length, weightedSize := c.published, meanwhile }

inductive Sighting where
  | unmapped
  /-- A node whose removal is half done. -/
  | retired (node : NodeId)
  | live (node : NodeId) (sight : Sight)

def sight (c : Cache) (key : Key) : Sighting :=
  match c.engine.store.get? key with
  | none => .unmapped
  | some id =>
    match c.engine.pool.load id with
    | none => .retired id
    | some sight => .live id sight

def lookup (c : Cache) (key : Key) : Option (NodeId × Value) :=
  match c.sight key with
  | .live id sight => some (id, sight.held.value)
  | _ => none

def weigh (c : Cache) (value : Value) : Except String Held :=
  match c.weigher value with
  | .ok weight => .ok ⟨value, weight⟩
  | .error message => .error message

def count (c : Cache) (f : Counters → Counters) : Cache := { c with counters := f c.counters }

end Cache

end BoundedCache
