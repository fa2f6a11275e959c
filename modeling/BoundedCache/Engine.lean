import BoundedCache.Buffers
import BoundedCache.Deque
import BoundedCache.Relay
import BoundedCache.Store

namespace BoundedCache

/-- Writers change nodes and store at once and record events; a drain replays the events into the
deque. No event carries a weight: a replay reads it off the node, so the order in which the events
of different buffers arrive does not matter. -/
structure Engine where
  pool : Pool := {}
  store : Store := {}
  buffers : Buffers
  deque : Deque := {}
  /-- Whether replacing a value makes its node the most recently used one. -/
  touchOnUpdate : Bool := true

structure Outcome where
  replayed : Nat
  victims : List Entry
  deriving DecidableEq, Repr

def Outcome.notable (o : Outcome) : Bool := o.replayed > 0 || !o.victims.isEmpty

instance : Buffered Engine where
  buffers e := e.buffers
  setBuffers b e := { e with buffers := b }
  buffers_setBuffers _ _ := rfl

namespace Engine

/-- Replays one event.

* A read moves a linked live node to the back.
* An add links an unlinked live node.
* An update gives the link of a live node its current weight.
* A remove takes a linked node out. -/
def apply (e : Engine) (event : Event) : Engine :=
  let held := e.pool.held event.node
  match event.kind, e.deque.slotOf event.node, held with
  | .read, some slot, some _ => { e with deque := e.deque.moveToBack slot }
  | .add, none, some held => { e with deque := (e.deque.pushBack event.node held.weight).2 }
  | .update, some slot, some held =>
    let deque := e.deque.setWeight slot held.weight
    { e with deque := if e.touchOnUpdate then deque.moveToBack slot else deque }
  | .remove, some slot, _ =>
    match e.deque.unlink slot with
    | some (_, deque) => { e with deque }
    | none => e
  | _, _, _ => e

def replay (e : Engine) : Nat × Engine := Buffered.drain (fun event e => e.apply event) e

def unmap (e : Engine) (id : NodeId) : Engine :=
  match e.store.removeIfMatch (e.pool.key id) id with
  | some store => { e with store }
  | none => e

def expel (e : Engine) (id : NodeId) : Option (Held × Engine) :=
  (e.pool.retire id).map fun (last, pool) => (last, { e with pool }.unmap id)

/-- Evicts in at most `n` rounds. A node that was retired before gives no victim. -/
def evictUpTo (capacity : Nat) : Nat → Engine → List Entry × Engine
  | 0, e => ([], e)
  | n + 1, e =>
    if e.deque.weightedSize ≤ capacity then ([], e)
    else
      match e.deque.popFront? with
      | none => ([], e)
      | some (id, deque) =>
        match { e with deque }.expel id with
        | none => evictUpTo capacity n { e with deque }
        | some (last, e) =>
          let (victims, e) := evictUpTo capacity n e
          (⟨e.pool.key id, last.value⟩ :: victims, e)

/-- Evicts from the front of the deque until the weighted size fits the capacity. Each round frees
a slot, so there are never more rounds than slots. -/
def evict (e : Engine) (capacity : Nat) : List Entry × Engine :=
  evictUpTo capacity e.deque.links.size e

def run (e : Engine) (capacity : Nat) : Outcome × Engine :=
  let (replayed, e) := e.replay
  let (victims, e) := e.evict capacity
  (⟨replayed, victims⟩, e)

def expelAll : List NodeId → Engine → Nat × Engine
  | [], e => (0, e)
  | id :: rest, e =>
    match e.expel id with
    | none => expelAll rest e
    | some (_, e) =>
      let (n, e) := expelAll rest e
      (n + 1, e)

def clearLinked (e : Engine) : Nat × Engine :=
  let (nodes, deque) := e.deque.drain
  expelAll nodes { e with deque }

/-- Retires and unmaps every mapped node, also one that was retired before. Gives how many were
alive. -/
def clearMapped (e : Engine) : Nat × Engine :=
  let nodes := e.store.nodes
  let (n, e) := expelAll nodes e
  (n, nodes.foldl unmap e)

def clear (e : Engine) : Nat × Engine :=
  let (_, e) := e.replay
  let (linked, e) := e.clearLinked
  let (mapped, e) := e.clearMapped
  (linked + mapped, e)

end Engine

end BoundedCache
