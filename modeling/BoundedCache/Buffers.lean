import BoundedCache.Event

namespace BoundedCache

structure Buffer where
  queue : List Event := []
  status : Status := .idle
  deriving DecidableEq, Repr

structure Buffers where
  room : Nat
  stripes : List Buffer
  /-- The number of the thread that makes the calls. -/
  thread : Nat := 0
  deriving DecidableEq, Repr

def stripeCount (level : Nat) : Nat := ([1, 2, 4, 8, 16, 32].find? (level ≤ ·)).getD 64

namespace Buffers

def ofLevel (level room : Nat) (thread : Nat := 0) : Buffers :=
  { room, stripes := List.replicate (stripeCount level) {}, thread }

def count (b : Buffers) : Nat := b.stripes.length

/-- The buffer of the thread that makes the calls. There is a power of two of them. -/
def own (b : Buffers) : Nat := b.thread &&& (b.count - 1)

def buffer (b : Buffers) (i : Nat) : Buffer := b.stripes[i]?.getD {}

def queue (b : Buffers) (i : Nat) : List Event := (b.buffer i).queue

def status (b : Buffers) (i : Nat) : Status := (b.buffer i).status

def setBuffer (b : Buffers) (i : Nat) (new : Buffer) : Buffers :=
  { b with stripes := b.stripes.set i new }

def setStatus (b : Buffers) (i : Nat) (s : Status) : Buffers :=
  b.setBuffer i { b.buffer i with status := s }

def pending (b : Buffers) : Nat := (b.stripes.flatMap (·.queue)).length

def statuses (b : Buffers) : List Status := b.stripes.map (·.status)

def drainRequired (b : Buffers) : Bool := b.stripes.any (·.status != .idle)

def Settled (b : Buffers) : Prop := ∀ buffer ∈ b.stripes, buffer = {}

def scheduled : Status → Status
  | .idle => .required
  | status => status

def record (b : Buffers) (i : Nat) (e : Event) : Except Event Buffers :=
  if i < b.count ∧ (b.queue i).length < b.room then
    .ok (b.setBuffer i { queue := b.queue i ++ [e], status := scheduled (b.status i) })
  else .error e

abbrev recordOwn (b : Buffers) (e : Event) : Except Event Buffers := b.record b.own e

def pop (b : Buffers) (i : Nat) : Option (Event × Buffers) :=
  match b.queue i with
  | [] => none
  | e :: rest => some (e, b.setBuffer i { b.buffer i with queue := rest })

/-- The status of a buffer after its replay: a drain is due again if events were left or came in. -/
def settle (b : Buffers) (i : Nat) : Buffers :=
  b.setStatus i (if (b.queue i).isEmpty then .idle else .required)

@[simp] theorem count_setBuffer (b : Buffers) (i : Nat) (new : Buffer) :
    (b.setBuffer i new).count = b.count := by
  simp [count, setBuffer]

theorem own_lt {b : Buffers} (h : 0 < b.count) : b.own < b.count :=
  Nat.lt_of_le_of_lt Nat.and_le_right (Nat.sub_lt h Nat.one_pos)

example : (ofLevel 4 128 6).own = 2 := by decide

theorem buffer_setBuffer (b : Buffers) (i j : Nat) (new : Buffer) (h : i < b.count) :
    (b.setBuffer i new).buffer j = if j = i then new else b.buffer j := by
  unfold buffer setBuffer
  by_cases hj : j = i
  · subst hj
    simp_all [count]
  · simp [hj, List.getElem?_set_ne (Ne.symm hj)]

/-- A recorded event is the last of its queue, and no other buffer changes. -/
theorem buffer_record {b c : Buffers} {i : Nat} {e : Event} (h : b.record i e = .ok c) (j : Nat) :
    c.buffer j =
      if j = i then ⟨b.queue i ++ [e], scheduled (b.status i)⟩ else b.buffer j := by
  unfold record at h
  split at h
  · rename_i hi
    cases h
    exact buffer_setBuffer b i j _ hi.1
  · cases h

/-- A full buffer gives the very event back. -/
theorem eq_of_record_eq_error {b : Buffers} {i : Nat} {e back : Event}
    (h : b.record i e = .error back) : back = e := by
  unfold record at h
  split at h <;> cases h
  rfl

end Buffers

/-- A state that carries event buffers. What is done with a replayed event may record further
events; they wait behind the claimed ones. -/
class Buffered (W : Type) where
  buffers : W → Buffers
  setBuffers : Buffers → W → W
  buffers_setBuffers : ∀ b w, buffers (setBuffers b w) = b

instance : Buffered Buffers where
  buffers b := b
  setBuffers b _ := b
  buffers_setBuffers _ _ := rfl

/-- A companion that is threaded through a replay does not touch the buffers. -/
instance {W X : Type} [Buffered W] : Buffered (W × X) where
  buffers w := Buffered.buffers w.1
  setBuffers b w := (Buffered.setBuffers b w.1, w.2)
  buffers_setBuffers b w := Buffered.buffers_setBuffers b w.1

namespace Buffered

variable {W : Type} [Buffered W]

/-- Replays at most `n` events of one buffer, oldest first. Gives how many there were. -/
def replay (apply : Event → W → W) (i : Nat) : Nat → W → Nat × W
  | 0, w => (0, w)
  | n + 1, w =>
    match (buffers w).pop i with
    | none => (0, w)
    | some (e, b) =>
      let (k, w) := replay apply i n (apply e (setBuffers b w))
      (k + 1, w)

/-- Claims one buffer and replays what waits in it at that moment. -/
def drainStripe (apply : Event → W → W) (i : Nat) (w : W) : Nat × W :=
  let w := setBuffers ((buffers w).setStatus i .processing) w
  let (k, w) := replay apply i ((buffers w).queue i).length w
  (k, setBuffers ((buffers w).settle i) w)

def drainStripes (apply : Event → W → W) : List Nat → W → Nat × W
  | [], w => (0, w)
  | i :: rest, w =>
    if (buffers w).status i = .idle then drainStripes apply rest w
    else
      let (k, w) := drainStripe apply i w
      let (l, w) := drainStripes apply rest w
      (k + l, w)

/-- Drains all buffers in index order. Gives the number of events replayed. -/
def drain (apply : Event → W → W) (w : W) : Nat × W :=
  drainStripes apply (List.range (buffers w).count) w

end Buffered

end BoundedCache
