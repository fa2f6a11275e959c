import BoundedCache.Cache.Insert

namespace BoundedCache

/-- A conditional write that has loaded a value and has not compared it yet. The node may be
written, retired or unmapped meanwhile. -/
structure Conditional where
  key : Key
  node : NodeId
  seen : Sight
  expected : Value
  next : Option Held
  deriving DecidableEq, Repr

namespace Cache

/-- Unmaps a key and retires its node, giving the last value. A node that was retired before loses
its mapping, and nothing else happens. -/
def remove (courier : Courier) (key : Key) (c : Cache) : Reply (Option Value) × Cache :=
  match c.engine.store.remove key with
  | none => (.returned none, c)
  | some (id, store) =>
    let c := { c with engine := { c.engine with store } }
    match c.engine.pool.retire id with
    | none => (.returned none, c)
    | some (last, pool) =>
      ({ c with engine := { c.engine with pool } }.count
        fun n => { n with removals := n.removals + 1 }).finishWrite
          courier ⟨.remove, id⟩ (some last.value)

/-- Replaces the value of a key that is mapped to a live node, giving the previous one. A value is
weighed only once a node was found. -/
def replace (courier : Courier) (key : Key) (value : Value) (c : Cache) :
    Reply (Option Value) × Cache :=
  match c.engine.store.get? key with
  | none => (.returned none, c)
  | some id =>
    match c.weigh value with
    | .error message => (.refused message, c)
    | .ok fresh => (c.overwrite courier id fresh).getD (.returned none, c)

def startSwap (key : Key) (id : NodeId) (expected : Value) (next : Option Held) (c : Cache) :
    Progress Conditional (Reply Bool) :=
  match c.engine.pool.load id with
  | none => .settled (.returned false) c
  | some seen => .gap ⟨key, id, seen, expected, next⟩

def startRemoveIf (key : Key) (expected : Value) (c : Cache) : Progress Conditional (Reply Bool) :=
  match c.engine.store.get? key with
  | none => .settled (.returned false) c
  | some id => c.startSwap key id expected none

/-- The new value is weighed once a node was found, before anything is compared. -/
def startReplaceIf (key : Key) (expected value : Value) (c : Cache) :
    Progress Conditional (Reply Bool) :=
  match c.engine.store.get? key with
  | none => .settled (.returned false) c
  | some id =>
    match c.weigh value with
    | .error message => .settled (.refused message) c
    | .ok fresh => c.startSwap key id expected (some fresh)

def resumeSwap (courier : Courier) (w : Conditional) (c : Cache) : Reply Bool × Cache :=
  match c.engine.pool.swapSeen w.node w.seen (· == w.expected) w.next with
  | .error _ => (.returned false, c)
  | .ok (_, pool) =>
    let e := { c.engine with pool }
    match w.next with
    | some _ =>
      ({ c with engine := e }.count fun n => { n with updates := n.updates + 1 }).finishWrite
        courier ⟨.update, w.node⟩ true
    | none =>
      let store := (e.store.removeIfMatch w.key w.node).getD e.store
      ({ c with engine := { e with store } }.count
        fun n => { n with removals := n.removals + 1 }).finishWrite
          courier ⟨.remove, w.node⟩ true

def removeIf (courier : Courier) (key : Key) (expected : Value) (c : Cache) : Reply Bool × Cache :=
  (c.startRemoveIf key expected).finish (resumeSwap courier) c

def replaceIf (courier : Courier) (key : Key) (expected value : Value) (c : Cache) :
    Reply Bool × Cache :=
  (c.startReplaceIf key expected value).finish (resumeSwap courier) c

end Cache

end BoundedCache
