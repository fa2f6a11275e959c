import BoundedCache.Proofs.Cache.Bisimulation

namespace BoundedCache

abbrev Relay.Edit := Relay (Listener (List Op)) (List Step) → Relay (Listener (List Op)) (List Step)

/-- An edit that shows neither in the queue and the count of failures, nor in how many scripts there
are. -/
structure Relay.Veil (γ : Relay.Edit) : Prop where
  enabled : ∀ r, (γ r).enabled = r.enabled
  queue : ∀ r, (γ r).queue = r.queue
  requeue : ∀ r queue, γ { r with queue } = { γ r with queue }
  failures : ∀ r, (γ r).failures = r.failures
  supply : ∀ r, (γ r).listener.map Listener.supply = r.listener.map Listener.supply

variable {γ : Relay.Edit}

theorem Relay.Veil.enqueue (hγ : Veil γ) (r : Relay (Listener (List Op)) (List Step)) (e : Entry) :
    (γ r).enqueue e = γ (r.enqueue e) := by
  by_cases he : r.enabled = true
  · rw [enqueue_of_enabled ((hγ.enabled r).trans he), enqueue_of_enabled he, hγ.queue]
    exact (hγ.requeue r _).symm
  · rw [Bool.not_eq_true] at he
    rw [enqueue_of_disabled ((hγ.enabled r).trans he), enqueue_of_disabled he]

namespace Cache

def veiled (γ : Relay.Edit) (c : Cache) : Cache := { c with relay := γ c.relay }

abbrev under (γ : Relay.Edit) {α : Type} : α × Cache → α × Cache := Prod.map id (veiled γ)

end Cache

/-- What the second courier does under a veil is what the first one does. -/
def Courier.Blind (γ : Relay.Edit) (courier courier' : Courier) : Prop :=
  ∀ c : Cache, courier' (c.veiled γ) = Cache.under γ (courier c)

theorem Courier.blind_busy : Courier.busy.Blind γ Courier.busy := fun _ => rfl

open Cache

variable {courier courier' : Courier}

theorem Relay.Veil.bisimulation (hγ : Relay.Veil γ) (hc : courier.Blind γ courier') :
    Bisimulation (fun c c' => c' = c.veiled γ) courier courier' where
  same h := ⟨_, h⟩
  revise := by
    intro c d r h hrelay _
    have hr : r = γ c.relay := congrArg (·.relay) h
    rw [hr, ← hrelay]
    rfl
  enqueue := by
    rintro c _ e rfl
    exact congrArg (fun r => { c with relay := r }) (hγ.enqueue c.relay e)
  queue := by
    rintro c _ rfl
    exact hγ.queue c.relay
  failures := by
    rintro c _ rfl
    exact hγ.failures c.relay
  scripts := by
    rintro c _ rfl
    exact congrArg (·.getD 0) (hγ.supply c.relay)
  deliver := by
    rintro c _ rfl
    rw [hc c]
    exact ⟨rfl, rfl⟩

theorem Cache.metrics_veiled (hγ : Relay.Veil γ) (c : Cache) :
    (c.veiled γ).metrics = c.metrics :=
  (hγ.bisimulation Courier.blind_busy).metrics rfl

/-- Operations do under a veil what they do without one. -/
theorem Op.runAll_veiled (hγ : Relay.Veil γ) (hc : courier.Blind γ courier') (ops : List Op)
    (c : Cache) : Op.runAll courier' ops (c.veiled γ) = under γ (Op.runAll courier ops c) := by
  have hrun := Op.runAll_bisim (hγ.bisimulation hc) ops (c := c) rfl
  exact Prod.ext hrun.report.symm hrun.cache

end BoundedCache
