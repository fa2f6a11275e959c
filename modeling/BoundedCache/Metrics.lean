namespace BoundedCache

structure Counters where
  hits : Nat := 0
  misses : Nat := 0
  inserts : Nat := 0
  updates : Nat := 0
  removals : Nat := 0
  evictions : Nat := 0
  /-- Reads whose recency event found the buffer full. -/
  droppedReads : Nat := 0
  drains : Nat := 0
  deriving DecidableEq, Repr

structure Metrics extends Counters where
  listenerFailures : Nat := 0
  weightedSize : Nat := 0
  capacity : Nat := 0
  entryCount : Nat := 0
  deriving DecidableEq, Repr

namespace Metrics

/-- The quotient of two counts, each rounded to the nearest double first. Zero over nothing. -/
def ratio (part whole : Nat) : Float :=
  if whole = 0 then 0.0 else Float.ofNat part / Float.ofNat whole

def totalAccesses (m : Metrics) : Nat := m.hits + m.misses

def totalWrites (m : Metrics) : Nat := m.inserts + m.updates

def hitRate (m : Metrics) : Float := ratio m.hits m.totalAccesses

def utilization (m : Metrics) : Float := ratio m.weightedSize m.capacity

end Metrics

end BoundedCache
