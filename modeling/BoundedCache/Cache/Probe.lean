import BoundedCache.Cache.Drain

namespace BoundedCache

namespace Cache

def order (c : Cache) : List Place :=
  c.engine.deque.toList.map fun l => ⟨c.engine.pool.key l.node, l.weight, l.slot⟩

def entries (c : Cache) : List (Key × Option Value) :=
  (c.engine.store.entries.map fun (key, id) => (key, (c.engine.pool.held id).map (·.value))).mergeSort
    fun a b => a.1 ≤ b.1

def mapRaw (key : Key) (value : Value) (c : Cache) : Answer Step × Cache :=
  match c.weigh value with
  | .error message => (.refused message, c)
  | .ok fresh =>
    let e := c.engine
    match e.store.insertIfAbsent key e.pool.next with
    | .error _ => (.flag false, c)
    | .ok store =>
      (.flag true, { c with engine := { e with store, pool := e.pool.add key fresh } })

def remapRaw (key : Key) (value : Value) (c : Cache) : Answer Step × Cache :=
  let e := c.engine
  match e.store.get? key with
  | none => (.flag false, c)
  | some id =>
    match c.weigh value with
    | .error message => (.refused message, c)
    | .ok fresh =>
      match e.store.replaceIfMatch key id e.pool.next with
      | none => (.flag false, c)
      | some store =>
        (.flag true, { c with engine := { e with store, pool := e.pool.add key fresh } })

def retireRaw (id : NodeId) (c : Cache) : Answer Step × Cache :=
  match c.engine.pool.retire id with
  | none => (.value none, c)
  | some (last, pool) => (.value (some last.value), { c with engine := { c.engine with pool } })

def recordRaw (id : NodeId) (stripe : Nat) (kind : EventKind) (c : Cache) : Answer Step × Cache :=
  let buffers := c.engine.buffers
  match buffers.record (stripe % buffers.count) ⟨kind, id⟩ with
  | .error _ => (.flag false, c)
  | .ok buffers => (.flag true, { c with engine := { c.engine with buffers } })

def applyRaw (id : NodeId) (kind : EventKind) (c : Cache) : Answer Step × Cache :=
  if c.lockHeld then (.blocked, c)
  else (.done, { c with engine := c.engine.apply ⟨kind, id⟩ })

def linkWeightRaw (id : NodeId) (weight : Weight) (c : Cache) : Answer Step × Cache :=
  if c.lockHeld then (.blocked, c)
  else
    match c.engine.deque.slotOf id with
    | none => (.flag false, c)
    | some slot =>
      (.flag true,
        { c with engine := { c.engine with deque := c.engine.deque.setWeight slot weight } })

/-- Acts on the node a key is mapped to, be it retired or not. -/
def onNode (key : Key) (f : NodeId → Cache → Answer Step × Cache) (c : Cache) :
    Answer Step × Cache :=
  match c.engine.store.get? key with
  | none => (.missing, c)
  | some id => f id c

def probe (courier : Courier) (p : Probe) (c : Cache) : Answer Step × Cache :=
  match p with
  | .order => (.order (if c.lockHeld then none else some c.order), c)
  | .entries => (.entries c.entries, c)
  | .pending => (.count c.engine.buffers.pending, c)
  | .statuses => (.statuses c.engine.buffers.statuses, c)
  | .unmap key =>
    match c.engine.store.remove key with
    | none => (.flag false, c)
    | some (_, store) => (.flag true, { c with engine := { c.engine with store } })
  | .map key value => c.mapRaw key value
  | .remap key value => c.remapRaw key value
  | .rawCapacity capacity => (.done, { c with capacity })
  | .notify key value => (.done, { c with relay := c.relay.enqueue ⟨key, value⟩ })
  | .deliver =>
    let (n, c) := courier c
    (.count n, c)
  | .retire key => c.onNode key retireRaw
  | .node key =>
    c.onNode key fun id c =>
      match c.engine.pool.node? id with
      | none => (.missing, c)
      | some node => (.text (node.describe (c.engine.deque.slotOf id)), c)
  | .record key stripe kind => c.onNode key (recordRaw · stripe kind)
  | .apply key kind => c.onNode key (applyRaw · kind)
  | .linkWeight key weight => c.onNode key (linkWeightRaw · weight)

end Cache

end BoundedCache
