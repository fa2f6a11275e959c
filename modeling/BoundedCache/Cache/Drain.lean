import BoundedCache.Cache

namespace BoundedCache

namespace Cache

/-- What a drain leaves before it delivers: the engine has run, its victims are queued, the weighted
size is published. -/
def drained (c : Cache) : Cache :=
  let (outcome, engine) := c.engine.run c.capacity
  let size := engine.deque.weightedSize
  let c := { c with engine, relay := c.relay.enqueueAll outcome.victims, published := size }
  if outcome.notable then
    { c with
      drains := c.drains ++ [⟨outcome, size, c.capacity⟩]
      counters := { c.counters with
        drains := c.counters.drains + 1
        evictions := c.counters.evictions + outcome.victims.length } }
  else c

/-- A drain by a caller that holds the lock and releases it before the delivery. -/
def drain (courier : Courier) (c : Cache) : Cache := (courier c.drained).2

def tryDrain (courier : Courier) (c : Cache) : Cache :=
  if c.lockHeld then c else c.drain courier

def recordRead (c : Cache) (id : NodeId) : Cache :=
  match c.engine.buffers.recordOwn ⟨.read, id⟩ with
  | .ok buffers => { c with engine := { c.engine with buffers } }
  | .error _ => c.count fun n => { n with droppedReads := n.droppedReads + 1 }

/-- Records a write in at most `n` attempts, with a drain between two attempts. None if the call
never gets its event in. -/
def recordWithin (courier : Courier) (event : Event) : Nat → Cache → Option Cache
  | 0, _ => none
  | n + 1, c =>
    match c.engine.buffers.recordOwn event with
    | .ok buffers =>
      let c := { c with engine := { c.engine with buffers } }
      some (if buffers.drainRequired then c.tryDrain courier else c)
    | .error event => if c.lockHeld then none else recordWithin courier event n (c.drain courier)

/-- The scripts that the listener can still run between two attempts of a writer. Each time the
buffer is full again when the writer comes back, one of them was used up. -/
def scriptsLeft (c : Cache) : Nat := (c.relay.listener.map Listener.supply).getD 0

def recordWrite (courier : Courier) (event : Event) (c : Cache) : Option Cache :=
  recordWithin courier event (c.scriptsLeft + 2) c

def finishWrite {α : Type} (courier : Courier) (event : Event) (result : α) (c : Cache) :
    Reply α × Cache :=
  match c.recordWrite courier event with
  | some c => (.returned result, c)
  | none => (.blocked, c)

end Cache

end BoundedCache
