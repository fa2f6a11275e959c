import BoundedCache.Proofs.Cache.Arises
import BoundedCache.Proofs.Cache.Integrity
import BoundedCache.Proofs.Engine.Eviction

namespace BoundedCache

/-- A replay of empty buffers and an eviction from a deque that fits do nothing. -/
theorem Engine.run_of_settled {e : Engine} {capacity : Nat} (hb : e.buffers.Settled)
    (hfits : e.deque.weightedSize ≤ capacity) : e.run capacity = (⟨0, []⟩, e) := by
  have hevents : e.buffers.events = [] := (Buffers.settled_iff.mp hb).1
  have hreplay : e.replay = (0, e) := by
    rw [replay_eq_of_awake e hb.awake, hevents, hb.emptied_eq]
    rfl
  rw [run, hreplay]
  dsimp only
  rw [evict_of_fits hfits]

namespace Cache

variable {s : Settings} {c c' : Cache}

/-- What a drain leaves. -/
structure AtRest (c : Cache) : Prop where
  settled : c.engine.buffers.Settled
  fits : c.engine.deque.weightedSize ≤ c.capacity
  published : c.published = c.engine.deque.weightedSize

/-- The relay plays no part. -/
theorem AtRest.withRelay (h : c.AtRest) (relay : Relay (Listener (List Op)) (List Step)) :
    AtRest { c with relay } :=
  ⟨h.settled, h.fits, h.published⟩

theorem atRest_drained (hb : c.engine.buffers.Awake) (hd : c.engine.deque.WellFormed) :
    c.drained.AtRest := by
  have hreplay : c.engine.replay.2.deque.WellFormed :=
    Engine.Changes.wellFormed c.engine.changes_replay hd
  refine ⟨?_, ?_, published_drained c⟩
  · rw [buffers_drained_of_awake hb]
    exact Buffers.settled_emptied _
  · rw [engine_drained, capacity_drained]
    exact Engine.evict_fits hreplay c.capacity

/-- A drain of a cache at rest is no drain, and is not counted as one. -/
theorem AtRest.drained_eq (h : c.AtRest) : c.drained = c := by
  have hrun := Engine.run_of_settled h.settled h.fits
  rw [drained, hrun]
  simp only [Outcome.notable, ← h.published]
  rfl

/-- At rest with nothing queued, a clean-up leaves the whole state as it is. -/
theorem AtRest.run_cleanUp (h : c.AtRest) (hlock : c.lockHeld = false)
    (hqueue : c.relay.queue = []) : Call.run deliver .cleanUp c = (.done, c) := by
  rw [Cache.run_cleanUp deliver hlock, drain, h.drained_eq, deliver_of_queue_nil hqueue]

/-- A clean-up settles everything and is idempotent. In any state that operations can find at the
top level with the lock free, it drains, which leaves the cache at rest, and then delivers all that
is queued. If the listener does nothing but listen the cache is at rest afterwards, and a clean-up
that follows directly changes nothing at all. -/
theorem cleanUp_settles (h : Arises s .top c) (hlock : c.lockHeld = false) :
    let last := (Call.run Cache.deliver .cleanUp c).2
    Call.run Cache.deliver .cleanUp c = (.done, c.drained.deliver.2) ∧
      c.drained.AtRest ∧ last.relay.queue = [] ∧
      ((∀ notice ∈ last.relay.notices.drop c.relay.notices.length, notice.silent) →
        last.AtRest ∧ Call.run Cache.deliver .cleanUp last = (.done, last)) := by
  have hrest : c.drained.AtRest := atRest_drained h.awake h.reachable.wellFormed
  have hattended : c.drained.Attended := h.attended.drained
  have hqueue : c.drained.deliver.2.relay.queue = [] := hattended.told_deliver.2
  have hrun : Call.run Cache.deliver .cleanUp c = (.done, c.drained.deliver.2) :=
    Cache.run_cleanUp deliver hlock
  rw [hrun]
  refine ⟨rfl, hrest, hqueue, fun hsilent => ?_⟩
  rw [← notices_drained] at hsilent
  obtain ⟨relay, hsame, _⟩ := hattended.deliver_silent hsilent
  dsimp only
  rw [hsame] at hqueue ⊢
  have hlock' : c.drained.lockHeld = false := (lockHeld_drained c).trans hlock
  exact ⟨hrest.withRelay relay, (hrest.withRelay relay).run_cleanUp hlock' hqueue⟩

def brittle : Settings := { capacity := 9, listener := some { failing := [("b", .other)] } }

/-- One linked node is retired, another has a wrong weight, the capacity has been cut down to less,
a live node is about to be unlinked, and an entry is queued that was never evicted. -/
def disarray : List Op :=
  [.call (.put "a" "1"), .call (.put "b" "2"), .probe (.retire "a"), .probe (.linkWeight "b" 7),
    .hold [.call (.put "c" "3")], .probe (.record "c" 5 .remove), .probe (.rawCapacity 3),
    .probe (.notify "x" "0")]

theorem cleanUp_settles_disarray :
    let c := (perform disarray brittle.empty).2
    let last := (Call.run Cache.deliver .cleanUp c).2
    c.lockHeld = false ∧ c.engine.buffers.pending = 2 ∧ c.engine.deque.weightedSize = 8 ∧
      last.AtRest ∧ last.relay.queue = [] ∧ last.told = [⟨"x", "0"⟩, ⟨"b", "2"⟩] ∧
      Call.run Cache.deliver .cleanUp last = (.done, last) := by
  have harises := arises_perform (s := brittle) rfl disarray
  have hlock : (perform disarray brittle.empty).2.lockHeld = false := by cbv
  have hsilent : ((Call.run Cache.deliver .cleanUp
      (perform disarray brittle.empty).2).2.relay.notices.drop
        (perform disarray brittle.empty).2.relay.notices.length).all
        (fun notice => (notice.reaction.getD []).isEmpty) = true := by cbv
  obtain ⟨_, _, hqueue, hlast⟩ := cleanUp_settles harises hlock
  obtain ⟨hrest, hagain⟩ := hlast fun notice hm =>
    List.isEmpty_iff.mp (List.all_eq_true.mp hsilent notice hm)
  exact ⟨hlock, by cbv, by cbv, hrest, hqueue, by cbv, hagain⟩

end Cache

end BoundedCache
