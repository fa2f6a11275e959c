import BoundedCache.Deque

namespace BoundedCache

namespace Deque

structure Tally where
  count : Nat := 0
  weight : Nat := 0
  deriving DecidableEq, Repr

def linkFault? (d : Deque) (slot : Slot) : Option Fault :=
  match (d.link slot).node with
  | none => some (.emptySlot slot)
  | some node =>
    if d.prev slot = slot ∨ d.next slot = slot then some (.ownNeighbor slot)
    else if d.next (d.prev slot) ≠ slot ∨ d.prev (d.next slot) ≠ slot then some (.brokenLink slot)
    else if d.slotOf node ≠ some slot then some (.misplaced slot (d.slotOf node))
    else none

/-- Walks the ring from a slot back to the sentinel. The walk marks the slots it passes, so it ends
within as many steps as there are slots. -/
def survey (d : Deque) : Nat → List Slot → Tally → Slot → Except Fault Tally
  | 0, _, tally, slot => if slot = 0 then .ok tally else .error (.loop slot)
  | n + 1, seen, tally, slot =>
    if slot = 0 then .ok tally
    else if slot ∈ seen then .error (.loop slot)
    else
      match d.linkFault? slot with
      | some fault => .error fault
      | none =>
        survey d n (slot :: seen)
          ⟨tally.count + 1, tally.weight + (d.link slot).weight.toNat⟩ (d.next slot)

def validate (d : Deque) : Except Fault Unit :=
  if d.next (d.prev 0) ≠ 0 ∨ d.prev (d.next 0) ≠ 0 then .error .sentinelBroken
  else
    match d.survey d.links.size [] {} (d.next 0) with
    | .error fault => .error fault
    | .ok tally =>
      if tally.count ≠ d.length then .error (.lengthDiffers d.length tally.count)
      else if tally.weight ≠ d.weightedSize then
        .error (.weightDiffers d.weightedSize tally.weight)
      else .ok ()

end Deque

end BoundedCache
