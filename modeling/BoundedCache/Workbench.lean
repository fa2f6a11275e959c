import BoundedCache.Deque.Validate
import BoundedCache.Engine
import BoundedCache.Listener
import BoundedCache.Reservation

namespace BoundedCache

/-- A script of this listener queues entries and then starts a delivery, which finds one in
progress. -/
structure Workbench where
  engine : Engine
  relay : Relay (Listener (List Entry)) Nat

instance : Buffered Workbench where
  buffers w := w.engine.buffers
  setBuffers b w := { w with engine := { w.engine with buffers := b } }
  buffers_setBuffers _ _ := rfl

instance : Relaying Workbench (Listener (List Entry)) Nat where
  relay w := w.relay
  setRelay r w := { w with relay := r }
  relay_setRelay _ _ := rfl

namespace Workbench

structure Setup where
  level : Nat
  room : Nat
  tables : Nat
  expected : Nat
  touchOnUpdate : Bool
  listener : Option (Listener (List Entry))

def Setup.build? (s : Setup) : Option Workbench :=
  if Reservation.bufferFits s.room && Reservation.tablesFit s.tables &&
      Reservation.dequeFits s.expected then
    some {
      engine := { buffers := Buffers.ofLevel s.level s.room, touchOnUpdate := s.touchOnUpdate }
      relay := Relay.ofListener s.listener }
  else none

structure Recording where
  stripe : Nat
  event : Event
  deriving DecidableEq, Repr

inductive Command where
  | node (key : Key) (held : Held)
  | info (id : NodeId)
  | replace (id : NodeId) (fresh : Held)
  | replaceWhen (id : NodeId) (expected : Value) (fresh : Held)
  | retire (id : NodeId)
  | retireWhen (id : NodeId) (expected : Value)
  | storeGet (key : Key)
  | storeRemove (key : Key)
  /-- Without a key, the node is stored under its own. -/
  | storeInsert (id : NodeId) (key : Option Key)
  | storeRemoveIf (key : Key) (id : NodeId)
  | storeReplaceIf (key : Key) (id new : NodeId)
  | storeLength
  | storeNodes
  | record (recording : Recording)
  | bufferDrain (during : List Recording)
  | bufferCount
  | pending
  | statuses
  | drainRequired
  | stripeStable
  | apply (event : Event)
  | evict (capacity : Nat)
  | run (capacity : Nat)
  | clear
  | pushBack (id : NodeId) (weight : Weight)
  | unlink (slot : Slot)
  | moveToBack (slot : Slot)
  | setWeight (slot : Slot) (weight : Weight)
  | dequeDrain
  | head
  | slots
  | validate
  | enqueue (entry : Entry)
  | deliver
  | relayState
  deriving DecidableEq, Repr

def Command.nodes : Command → List NodeId
  | .info id | .replace id _ | .replaceWhen id _ _ | .retire id | .retireWhen id _
  | .storeInsert id _ | .storeRemoveIf _ id | .pushBack id _ => [id]
  | .storeReplaceIf _ id new => [id, new]
  | .apply event => [event.node]
  | _ => []

structure NodeInfo where
  held : Option Held
  linked : Bool
  text : String
  deriving DecidableEq, Repr

inductive Answer where
  | done
  | missing
  | count (n : Nat)
  | flag (b : Bool)
  | counts (ns : List Nat)
  | info (info : NodeInfo)
  | held (held : Held)
  | swap (result : Except Refusal Held)
  | rejected (event : Event)
  | drained (replayed : Nat) (events : List Event)
  | statuses (statuses : List Status)
  | ran (replayed evicted : Nat)
  | unlinked (id : NodeId) (weight : Weight)
  | relay (enabled empty : Bool) (failures : Nat)
  | failed (error : Error)
  | outOfRange

def swap (id : NodeId) (accepts : Value → Bool) (next : Option Held) (w : Workbench) :
    Except Refusal Held × Workbench :=
  match w.engine.pool.swapWhen id accepts next with
  | .error refusal => (.error refusal, w)
  | .ok (held, pool) => (.ok held, { w with engine := { w.engine with pool } })

def Answer.previous : Except Refusal Held → Answer
  | .ok last => .held last
  | .error _ => .missing

def setStore (store : Option Store) (w : Workbench) : Answer × Workbench :=
  match store with
  | none => (.flag false, w)
  | some store => (.flag true, { w with engine := { w.engine with store } })

def optional : Option Nat → Answer
  | none => .missing
  | some n => .count n

def setBuffers (buffers : Buffers) (w : Workbench) : Workbench :=
  { w with engine := { w.engine with buffers } }

def admits (w : Workbench) (r : Recording) : Bool :=
  r.event.node < w.engine.pool.next && r.stripe < w.engine.buffers.count

def record (r : Recording) (w : Workbench) : Except Event Workbench :=
  match w.engine.buffers.record r.stripe r.event with
  | .ok buffers => .ok (w.setBuffers buffers)
  | .error event => .error event

/-- Records what fits, up to the first recording that names something that does not exist. -/
def recordAll : List Recording → Workbench → Workbench
  | [], w => w
  | r :: rest, w => if w.admits r then recordAll rest ((w.record r).toOption.getD w) else w

def drainToList (during : List Recording) (w : Workbench) : (Nat × List Event) × Workbench :=
  let (n, w, events) := Buffered.drain (W := Workbench × List Event)
    (fun event (w, events) =>
      (if events.isEmpty then w.recordAll during else w, events ++ [event]))
    (w, [])
  ((n, events), w)

/-- A drain that breaks off during its first event. The event is lost, its buffer stays claimed,
and the buffers behind it are not reached. -/
def breakOff (during : List Recording) : List Nat → Workbench → Workbench
  | [], w => w
  | i :: rest, w =>
    let buffers := w.engine.buffers
    if buffers.status i = .idle then breakOff during rest w
    else
      match buffers.pop i with
      | none => breakOff during rest (w.setBuffers (buffers.settle i))
      | some (_, popped) => (w.setBuffers (popped.setStatus i .processing)).recordAll during

/-- Drains all buffers into a list. What is to be recorded meanwhile is looked at only once there is
an event. -/
def bufferDrain (during : List Recording) (w : Workbench) : Answer × Workbench :=
  if w.engine.buffers.pending = 0 ∨ during.all w.admits then
    let ((n, events), w) := w.drainToList during
    (.drained n events, w)
  else (.outOfRange, w.breakOff during (List.range w.engine.buffers.count))

/-- A reaction: queues entries, then starts a delivery inside the one in progress. Whatever that
inner delivery would do with a script, it runs none. -/
def react (entries : List Entry) (w : Workbench) : Nat × Workbench :=
  Relaying.deliver (fun _ w => (0, w)) { w with relay := w.relay.enqueueAll entries }

def deliver (w : Workbench) : Nat × Workbench := Relaying.deliver react w

def nodeInfo (id : NodeId) (n : Node) (w : Workbench) : NodeInfo :=
  let slot := w.engine.deque.slotOf id
  { held := n.held, linked := slot.isSome, text := n.describe slot }

def setDeque (deque : Deque) (w : Workbench) : Workbench :=
  { w with engine := { w.engine with deque } }

def walkLimit : Nat := 200

def order (w : Workbench) : List Linked := w.engine.deque.walk walkLimit

def act (command : Command) (w : Workbench) : Answer × Workbench :=
  let e := w.engine
  match command with
  | .node key held =>
    (.count e.pool.next, { w with engine := { e with pool := e.pool.add key held } })
  | .info id =>
    match e.pool.node? id with
    | none => (.outOfRange, w)
    | some n => (.info (w.nodeInfo id n), w)
  | .replace id fresh =>
    let (result, w) := w.swap id (fun _ => true) (some fresh)
    (.previous result, w)
  | .replaceWhen id expected fresh =>
    let (result, w) := w.swap id (· == expected) (some fresh)
    (.swap result, w)
  | .retire id =>
    let (result, w) := w.swap id (fun _ => true) none
    (.previous result, w)
  | .retireWhen id expected =>
    let (result, w) := w.swap id (· == expected) none
    (.swap result, w)
  | .storeGet key => (optional (e.store.get? key), w)
  | .storeRemove key =>
    match e.store.remove key with
    | none => (.missing, w)
    | some (id, store) => (.count id, { w with engine := { e with store } })
  | .storeInsert id key =>
    match e.store.insertIfAbsent (key.getD (e.pool.key id)) id with
    | .error resident => (.count resident, w)
    | .ok store => (.missing, { w with engine := { e with store } })
  | .storeRemoveIf key id => w.setStore (e.store.removeIfMatch key id)
  | .storeReplaceIf key id new => w.setStore (e.store.replaceIfMatch key id new)
  | .storeLength => (.count e.store.size, w)
  | .storeNodes => (.counts (e.store.nodes.mergeSort (· ≤ ·)), w)
  | .record recording =>
    if w.admits recording then
      match w.record recording with
      | .ok w => (.flag true, w)
      | .error event => (.rejected event, w)
    else (.outOfRange, w)
  | .bufferDrain during => w.bufferDrain during
  | .bufferCount => (.count e.buffers.count, w)
  | .pending => (.count e.buffers.pending, w)
  | .statuses => (.statuses e.buffers.statuses, w)
  | .drainRequired => (.flag e.buffers.drainRequired, w)
  | .stripeStable => (.flag true, w)
  | .apply event => (.done, { w with engine := e.apply event })
  | .evict capacity =>
    let (victims, engine) := e.evict capacity
    (.count victims.length, { w with engine, relay := w.relay.enqueueAll victims })
  | .run capacity =>
    let (outcome, engine) := e.run capacity
    (.ran outcome.replayed outcome.victims.length,
      { w with engine, relay := w.relay.enqueueAll outcome.victims })
  | .clear =>
    let (n, engine) := e.clearLinked
    (.count n, { w with engine })
  | .pushBack id weight =>
    let (slot, deque) := e.deque.pushBack id weight
    (.count slot, w.setDeque deque)
  | .unlink slot =>
    match e.deque.unlink slot with
    | none => (.missing, w)
    | some ((id, weight), deque) => (.unlinked id weight, w.setDeque deque)
  | .moveToBack slot =>
    if e.deque.InArena slot then (.done, w.setDeque (e.deque.moveToBack slot)) else (.outOfRange, w)
  | .setWeight slot weight =>
    if e.deque.InArena slot then (.done, w.setDeque (e.deque.setWeight slot weight))
    else (.outOfRange, w)
  | .dequeDrain =>
    let (nodes, deque) := e.deque.drain
    (.counts nodes, w.setDeque deque)
  | .head => (optional e.deque.head?, w)
  | .slots =>
    (.counts (w.order.map fun l => Node.slotNumber (e.deque.slotOf l.node)), w)
  | .validate =>
    match e.deque.validate with
    | .ok _ => (.done, w)
    | .error fault => (.failed fault.toError, w)
  | .enqueue entry => (.done, { w with relay := w.relay.enqueue entry })
  | .deliver =>
    let (n, w) := w.deliver
    (.count n, w)
  | .relayState => (.relay w.relay.enabled w.relay.queue.isEmpty w.relay.failures, w)

/-- Runs a command. One that names a node that was never made changes nothing. -/
def run (command : Command) (w : Workbench) : Answer × Workbench :=
  if command.nodes.all (· < w.engine.pool.next) then w.act command else (.outOfRange, w)

structure Report where
  answer : Answer
  length : Nat
  weightedSize : Nat
  order : List Linked
  notices : List (Notice Nat)

def perform : List Command → Workbench → List Report
  | [], _ => []
  | command :: rest, w =>
    let (answer, next) := w.run command
    { answer
      length := next.engine.deque.length
      weightedSize := next.engine.deque.weightedSize
      order := next.order
      notices := next.relay.notices.drop w.relay.notices.length } :: perform rest next

end Workbench

end BoundedCache
