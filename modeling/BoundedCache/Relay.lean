import BoundedCache.Error
import BoundedCache.Weigher

namespace BoundedCache

structure Entry where
  key : Key
  value : Value
  deriving DecidableEq, Repr

inductive Payload where
  | text (content : String)
  | other
  deriving DecidableEq, Repr

def Payload.message : Payload → String
  | .text content => content
  | .other => "non-string panic payload"

structure Response (σ : Type) where
  script : Option σ := none
  payload : Option Payload := none

/-- A listener `L` whose scripts are of type `σ`. They come from a finite supply, and so a delivery
ends. -/
class Listens (L : Type) (σ : outParam Type) where
  respond : L → Entry → Response σ × L
  /-- A bound on the scripts that are still to come. -/
  supply : L → Nat
  supply_le : ∀ l e, supply (respond l e).2 ≤ supply l
  supply_lt : ∀ l e, (respond l e).1.script.isSome → supply (respond l e).2 < supply l

/-- One finished call of the listener; `α` is what running a script gives. -/
structure Notice (α : Type) where
  entry : Entry
  reaction : Option α
  payload : Option Payload

structure Relay (L α : Type) where
  /-- Without a listener nothing is ever queued. -/
  enabled : Bool
  /-- Away while a delivery is in progress. -/
  listener : Option L
  queue : List Entry := []
  failures : Nat := 0
  notices : List (Notice α) := []

namespace Notice

def warning? {α : Type} (n : Notice α) : Option String :=
  n.payload.map fun p => (Error.listenerPanicked p.message).message

end Notice

namespace Relay

variable {L α : Type}

def ofListener (listener : Option L) : Relay L α := { enabled := listener.isSome, listener }

def enqueue (r : Relay L α) (e : Entry) : Relay L α :=
  if r.enabled then { r with queue := r.queue ++ [e] } else r

def enqueueAll (r : Relay L α) (es : List Entry) : Relay L α := es.foldl enqueue r

def log (r : Relay L α) (n : Notice α) : Relay L α :=
  { r with
    notices := r.notices ++ [n]
    failures := if n.payload.isSome then r.failures + 1 else r.failures }

theorem enqueue_of_enabled {r : Relay L α} (h : r.enabled = true) (e : Entry) :
    r.enqueue e = { r with queue := r.queue ++ [e] } := by
  simp [enqueue, h]

theorem enqueue_of_disabled {r : Relay L α} (h : r.enabled = false) (e : Entry) :
    r.enqueue e = r := by
  simp [enqueue, h]

theorem enqueueAll_eq (r : Relay L α) (es : List Entry) :
    r.enqueueAll es = if r.enabled then { r with queue := r.queue ++ es } else r := by
  induction es generalizing r with
  | nil => simp [enqueueAll]
  | cons e es ih =>
    show (r.enqueue e).enqueueAll es = _
    rw [ih]
    cases h : r.enabled with
    | true => simp [enqueue_of_enabled h, h]
    | false => simp [enqueue_of_disabled h, h]

@[simp] theorem queue_log (r : Relay L α) (n : Notice α) : (r.log n).queue = r.queue := rfl

end Relay

class Relaying (W : Type) (L α : outParam Type) where
  relay : W → Relay L α
  setRelay : Relay L α → W → W
  relay_setRelay : ∀ r w, relay (setRelay r w) = r

instance {L α : Type} : Relaying (Relay L α) L α where
  relay r := r
  setRelay r _ := r
  relay_setRelay _ _ := rfl

namespace Relaying

variable {W L α σ : Type} [Relaying W L α]

def react (perform : σ → W → α × W) (response : Response σ) (w : W) : Option α × W :=
  match response.script with
  | none => (none, w)
  | some script =>
    let (a, w) := perform script w
    (some a, w)

def call (perform : σ → W → α × W) (e : Entry) (response : Response σ) (w : W) : W :=
  let (reaction, w) := react perform response w
  setRelay ((relay w).log ⟨e, reaction, response.payload⟩) w

theorem queue_call_of_silent (perform : σ → W → α × W) (e : Entry) {response : Response σ}
    (h : response.script = none) (w : W) :
    (relay (call perform e response w)).queue = (relay w).queue := by
  simp [call, react, h, relay_setRelay]

variable [Listens L σ]

/-- Calls the listener for every queued entry, those that come in on the way included. Gives the
number of calls and what has become of the listener. -/
def deliverAll (perform : σ → W → α × W) (l : L) (w : W) : Nat × L × W :=
  match _waiting : (relay w).queue with
  | [] => (0, l, w)
  | e :: rest =>
    let w' := call perform e (Listens.respond l e).1
      (setRelay { relay w with queue := rest } w)
    let (n, l, w) := deliverAll perform (Listens.respond l e).2 w'
    (n + 1, l, w)
termination_by (Listens.supply l, (relay w).queue.length)
decreasing_by
  rcases hs : (Listens.respond l e).1.script with _ | script
  · have hq := queue_call_of_silent perform e hs (setRelay { relay w with queue := rest } w)
    rw [relay_setRelay] at hq
    have hlt : (relay w').queue.length < (relay w).queue.length := by
      show (relay (call perform e (Listens.respond l e).1 _)).queue.length < _
      rw [hq, _waiting]
      simp
    rcases Nat.lt_or_eq_of_le (Listens.supply_le l e) with hl | he
    · exact Prod.Lex.left _ _ hl
    · rw [he]
      exact Prod.Lex.right _ hlt
  · exact Prod.Lex.left _ _ (Listens.supply_lt l e (by simp [hs]))

/-- Delivers everything that is queued. Gives the number of calls. A delivery takes the listener
away while it lasts, so one that starts inside of it finds nobody to call. -/
def deliver (perform : σ → W → α × W) (w : W) : Nat × W :=
  match (relay w).listener with
  | none => (0, w)
  | some l =>
    let (n, l, w) := deliverAll perform l (setRelay { relay w with listener := none } w)
    (n, setRelay { relay w with listener := some l } w)

theorem deliver_of_away (perform : σ → W → α × W) {w : W} (h : (relay w).listener = none) :
    deliver perform w = (0, w) := by
  simp [deliver, h]

end Relaying

end BoundedCache
