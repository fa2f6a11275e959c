import Mathlib
import BoundedCache.Proofs.Cache.Moves
import BoundedCache.Proofs.Engine.Intact

namespace BoundedCache

namespace Cache

variable {s : Settings} {c : Cache}

theorem Reachable.wellFormed (h : Reachable s c) : c.engine.deque.WellFormed := by
  obtain ⟨fresh, hbuild, hc⟩ := h
  obtain ⟨_, rfl⟩ := Settings.eq_empty_of_build hbuild
  exact hc.engine.wellFormed Deque.wellFormed_empty

/-- In every state that operations of any kind can lead to, nothing is wrong with the deque, and an
event that is replayed there, however old it is and whatever has become of its node, leaves the
links of all other nodes alone. -/
theorem deque_intact (h : Reachable s c) :
    c.engine.deque.Intact ∧
      ∀ ev, (c.engine.apply ev).deque.others ev.node = c.engine.deque.others ev.node :=
  ⟨h.wellFormed.intact, Engine.others_apply h.wellFormed⟩

/-- A live node is taken out of the deque by an event that nothing justifies, another node gets its
slot, and one more such event about the first node still waits. -/
def reusedSlot : List Op :=
  [.call (.put "a" "1"), .call .cleanUp, .probe (.apply "a" .remove),
    .hold [.probe (.record "a" 0 .remove), .call (.put "b" "2")], .probe (.apply "b" .add)]

theorem deque_intact_reusedSlot :
    let e := (perform reusedSlot { capacity := 2 : Settings }.empty).2.engine
    ⟨.remove, 0⟩ ∈ e.buffers.stripes.flatMap (·.queue) ∧ e.deque.slotOf 0 = none ∧
      e.deque.slotOf 1 = some 1 ∧ e.deque.Intact ∧
      ∀ ev, (e.apply ev).deque.others ev.node = e.deque.others ev.node := by
  have hreached := reachable_perform (s := { capacity := 2 }) rfl reusedSlot
  exact ⟨by decide +kernel, by cbv, by cbv, deque_intact hreached⟩

end Cache

end BoundedCache
