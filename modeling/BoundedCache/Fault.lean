import BoundedCache.Error
import BoundedCache.Event

namespace BoundedCache

/-- A place in the arena of the deque. Slot 0 is the sentinel of the ring. -/
abbrev Slot := Nat

inductive Fault where
  | lockHeld
  | eventsPending (count : Nat)
  | bufferLeft (status : Status)
  | notificationsPending
  | sentinelBroken
  | loop (slot : Slot)
  | emptySlot (slot : Slot)
  | ownNeighbor (slot : Slot)
  | brokenLink (slot : Slot)
  | misplaced (slot : Slot) (recorded : Option Slot)
  | lengthDiffers (length count : Nat)
  | weightDiffers (weightedSize sum : Nat)
  | unpaired (linked mapped : Nat)
  | retiredLinked (slot : Slot)
  | staleWeight (slot : Slot) (linked current : Weight)
  | unmapped (slot : Slot)
  | publishedDiffers (published actual : Nat)
  | overCapacity (size capacity : Nat)
  deriving DecidableEq, Repr

namespace Fault

def message : Fault → String
  | lockHeld => "eviction lock is held"
  | eventsPending count => s!"{count} buffered events were not replayed"
  | bufferLeft status => "buffer left in " ++ status.name
  | notificationsPending => "eviction notifications are pending"
  | sentinelBroken => "sentinel link corruption"
  | loop slot => s!"loop detected at slot {slot}"
  | emptySlot slot => s!"empty slot {slot} is linked"
  | ownNeighbor slot => s!"slot {slot} is its own neighbor"
  | brokenLink slot => s!"link corruption at slot {slot}"
  | misplaced slot recorded =>
    s!"node in slot {slot} records slot " ++ toString (Node.slotNumber recorded)
  | lengthDiffers length count => s!"deque length {length} != linked count {count}"
  | weightDiffers weightedSize sum =>
    s!"weighted size {weightedSize} != sum of link weights {sum}"
  | unpaired linked mapped => s!"deque holds {linked} nodes but the store maps {mapped}"
  | retiredLinked slot => s!"retired node linked at slot {slot}"
  | staleWeight slot linked current =>
    s!"slot {slot} links weight " ++ toString linked.toNat ++ " for a value of weight " ++
      toString current.toNat
  | unmapped slot => s!"node at slot {slot} is not mapped"
  | publishedDiffers published actual =>
    s!"published weighted size {published} != deque weighted size {actual}"
  | overCapacity size capacity => s!"weighted size {size} exceeds capacity {capacity}"

def toError (f : Fault) : Error := .invariant f.message

end Fault

end BoundedCache
