import BoundedCache.Cache
import BoundedCache.Deque.Validate

namespace BoundedCache

namespace Cache

def linkedFault? (c : Cache) (l : Linked) : Option Fault :=
  match c.engine.pool.held l.node with
  | none => some (.retiredLinked l.slot)
  | some held =>
    if held.weight ≠ l.weight ∨ (c.weigher held.value).toOption ≠ some l.weight then
      some (.staleWeight l.slot l.weight held.weight)
    else if c.engine.store.get? (c.engine.pool.key l.node) ≠ some l.node then
      some (.unmapped l.slot)
    else none

def restFault? (c : Cache) : Option Fault :=
  let buffers := c.engine.buffers
  if c.lockHeld then some .lockHeld
  else if buffers.pending ≠ 0 then some (.eventsPending buffers.pending)
  else
    match buffers.statuses.find? (· ≠ .idle) with
    | some status => some (.bufferLeft status)
    | none => if c.relay.queue.isEmpty then none else some .notificationsPending

def sizeFault? (c : Cache) : Option Fault :=
  let actual := c.engine.deque.weightedSize
  if c.published ≠ actual then some (.publishedDiffers c.published actual)
  else if c.published > c.capacity then some (.overCapacity c.published c.capacity)
  else none

/-- Validates a cache at rest, with a free lock and nothing left to replay or to deliver. The first
fault found is reported. -/
def check (c : Cache) : Except Fault Unit :=
  let deque := c.engine.deque
  match c.restFault? with
  | some fault => .error fault
  | none =>
    match deque.validate with
    | .error fault => .error fault
    | .ok _ =>
      if deque.length ≠ c.length then .error (.unpaired deque.length c.length)
      else
        match deque.toList.findSome? c.linkedFault? with
        | some fault => .error fault
        | none =>
          match c.sizeFault? with
          | some fault => .error fault
          | none => .ok ()

end Cache

end BoundedCache
