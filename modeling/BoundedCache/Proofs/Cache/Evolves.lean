import BoundedCache.Cache.Run
import BoundedCache.Proofs.Buffers
import BoundedCache.Proofs.Engine.Paired

namespace BoundedCache

def Listener.Stocks {σ : Type} (l : Listener σ) (P : σ → Prop) : Prop :=
  ∀ p ∈ l.scripts, ∀ script ∈ p.2, P script

namespace Cache

@[simp] theorem engine_count (c : Cache) (f : Counters → Counters) : (c.count f).engine = c.engine :=
  rfl

@[simp] theorem relay_count (c : Cache) (f : Counters → Counters) : (c.count f).relay = c.relay :=
  rfl

@[simp] theorem relay_recordRead (c : Cache) (id : NodeId) : (c.recordRead id).relay = c.relay := by
  unfold recordRead
  split <;> rfl

/-- A clearing changes engine and published size only. -/
theorem cleared_eq (c : Cache) :
    c.cleared = (c.engine.clear.1, { c with
      engine := c.engine.clear.2, published := c.engine.clear.2.deque.weightedSize }) := by
  unfold cleared
  generalize c.engine.clear = result
  rfl

def Stocked (P : List Op → Prop) (c : Cache) : Prop := ∀ l ∈ c.relay.listener, l.Stocks P

/-- `c'` can have come of `c` through calls. -/
structure Evolves (c c' : Cache) : Prop where
  engine : c.engine.Evolves c'.engine
  paired : c.engine.Paired → c'.engine.Paired
  weigher : c'.weigher = c.weigher
  lock : c'.lockHeld = c.lockHeld
  enabled : c'.relay.enabled = c.relay.enabled
  stocked : ∀ P, c.Stocked P → c'.Stocked P
  notices : c.relay.notices <+: c'.relay.notices
  drains : c.drains <+: c'.drains

/-- What calls rely on: exactly the live nodes are mapped, and scripts are of a kind. -/
structure Proper (P : List Op → Prop) (c : Cache) : Prop where
  paired : c.engine.Paired
  stocked : c.Stocked P

end Cache

def Courier.Steady (P : List Op → Prop) (courier : Courier) : Prop :=
  ∀ c : Cache, c.Proper P → c.Evolves (courier c).2

namespace Cache

variable {c c' c'' : Cache} {event : Event} {courier : Courier} {P : List Op → Prop}

namespace Evolves

theorem refl (c : Cache) : c.Evolves c :=
  ⟨.refl _, id, rfl, rfl, rfl, fun _ h => h, List.prefix_refl _, List.prefix_refl _⟩

theorem trans (h : c.Evolves c') (h' : c'.Evolves c'') : c.Evolves c'' :=
  ⟨h.engine.trans h'.engine, fun hp => h'.paired (h.paired hp), h'.weigher.trans h.weigher,
    h'.lock.trans h.lock, h'.enabled.trans h.enabled, fun P hs => h'.stocked P (h.stocked P hs),
    h.notices.trans h'.notices, h.drains.trans h'.drains⟩

theorem proper (h : c.Evolves c') (hp : c.Proper P) : c'.Proper P :=
  ⟨h.paired hp.paired, h.stocked P hp.stocked⟩

/-- Counters, capacity and published size play no part. -/
theorem count (c : Cache) (f : Counters → Counters) : c.Evolves (c.count f) :=
  ⟨.refl _, id, rfl, rfl, rfl, fun _ h => h, List.prefix_refl _, List.prefix_refl _⟩

theorem recap (c : Cache) (capacity : Nat) : c.Evolves { c with capacity } :=
  ⟨.refl _, id, rfl, rfl, rfl, fun _ h => h, List.prefix_refl _, List.prefix_refl _⟩

theorem engineStep {e : Engine} (h : c.engine.Evolves e) (hp : c.engine.Paired → e.Paired) :
    c.Evolves { c with engine := e } :=
  ⟨h, hp, rfl, rfl, rfl, fun _ h => h, List.prefix_refl _, List.prefix_refl _⟩

theorem rebuffer {b : Buffers} {i : Nat} (h : c.engine.buffers.record i event = .ok b) :
    c.Evolves { c with engine := { c.engine with buffers := b } } := by
  exact engineStep (.rebuffer _ (Buffers.emptied_record h)) (fun hp => hp.of_eq rfl rfl)

theorem recordRead (c : Cache) (id : NodeId) : c.Evolves (c.recordRead id) := by
  unfold Cache.recordRead
  split
  · rename_i h
    exact rebuffer h
  · exact count c _

theorem drained (c : Cache) : c.Evolves c.drained := by
  have hengine := Engine.Evolves.of_changes (c.engine.changes_run c.capacity)
  have hpaired (hp : c.engine.Paired) := hp.run c.capacity
  have hnotices : c.relay.notices <+:
      (c.relay.enqueueAll (c.engine.run c.capacity).1.victims).notices := by
    rw [Relay.enqueueAll_eq]
    split <;> exact List.prefix_refl _
  have henabled : (c.relay.enqueueAll (c.engine.run c.capacity).1.victims).enabled =
      c.relay.enabled := by
    rw [Relay.enqueueAll_eq]
    split <;> rfl
  have hlistener : (c.relay.enqueueAll (c.engine.run c.capacity).1.victims).listener =
      c.relay.listener := by
    rw [Relay.enqueueAll_eq]
    split <;> rfl
  have hstocked (P : List Op → Prop) (h : c.Stocked P) (l : Listener (List Op))
      (hl : l ∈ (c.relay.enqueueAll (c.engine.run c.capacity).1.victims).listener) : l.Stocks P :=
    h l (hlistener ▸ hl)
  unfold Cache.drained
  dsimp only
  split
  · exact ⟨hengine, hpaired, rfl, rfl, henabled, hstocked, hnotices, List.prefix_append _ _⟩
  · exact ⟨hengine, hpaired, rfl, rfl, henabled, hstocked, hnotices, List.prefix_refl _⟩

theorem drain (hc : courier.Steady P) (hp : c.Proper P) : c.Evolves (c.drain courier) := by
  have hdrained := drained c
  exact hdrained.trans (hc _ (hdrained.proper hp))

theorem cleared (c : Cache) : c.Evolves c.cleared.2 := by
  have hengine := Engine.Evolves.of_changes c.engine.changes_clear
  have hpaired (hp : c.engine.Paired) := hp.clear
  rw [cleared_eq]
  generalize c.engine.clear = result at hengine hpaired ⊢
  exact ⟨hengine, hpaired, rfl, rfl, rfl, fun _ h => h, List.prefix_refl _, List.prefix_refl _⟩

end Evolves

end Cache

end BoundedCache
