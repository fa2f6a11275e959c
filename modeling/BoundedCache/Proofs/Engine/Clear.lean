import BoundedCache.Proofs.Engine.Live

namespace BoundedCache.Engine

variable {e : Engine} {pending : List Event}

structure Void (e : Engine) : Prop where
  linked : e.deque.Ring []
  unmapped : e.store.entries = []
  size : e.store.size = 0
  retired : ∀ id, e.pool.held id = none

theorem Void.accounted (h : e.Void) (hn : ∀ ev ∈ pending, ev.node < e.pool.next) :
    Accounted pending e := by
  have hweight (id : NodeId) : e.deque.weightOf? id = none := by
    rw [Deque.weightOf?_eq_none_iff, h.linked.slotOf_eq_none_iff]
    simp
  have hget (k : Key) : e.store.get? k = none := by simp [Store.get?, h.unmapped]
  constructor
  · constructor
    · exact ⟨by simp [h.unmapped], by simp [h.unmapped, h.size], by simp [hget], by simp [hget]⟩
    · simp [hget, h.retired]
  · exact h.linked.wellFormed
  · exact hn
  · simp [hweight]
  · simp [h.retired]
  · simp [h.retired]
  · simp [hweight]
  · exact fun id _ => h.retired id

/-- A clearing replays, and does not touch the buffers after that. -/
theorem buffers_clear_eq (e : Engine) : e.clear.2.buffers = e.replay.2.buffers := by
  have hmapped (e : Engine) : e.clearMapped.2.buffers = e.buffers :=
    (unchanged_foldl_unmap _ _).2.2.trans (unchanged_expelAll e.store.nodes e).2
  have hlinked (e : Engine) : e.clearLinked.2.buffers = e.buffers :=
    (unchanged_expelAll e.deque.drain.1 { e with deque := e.deque.drain.2 }).2
  simp only [clear_eq]
  exact (hmapped _).trans (hlinked _)

/-- The replay empties sound buffers. -/
theorem buffers_clear (hs : e.buffers.Sound) : e.clear.2.buffers = e.buffers.emptied := by
  rw [buffers_clear_eq, replay_eq e hs]

/-- A clearing leaves nothing, and empty buffers. -/
theorem Accounted.clear (h : Accounted (e.buffers.events ++ pending) e) (hs : e.buffers.Sound) :
    e.clear.2.Void ∧ e.clear.2.buffers = e.buffers.emptied := by
  have hreplay := h.replay hs
  obtain ⟨d, hd, hring⟩ := Deque.Ring.drain_eq hreplay.deque
  let linked : Engine := { e.replay.2 with deque := d }
  let unlinked : Engine := (Engine.expelAll (e.replay.2.deque.toList.map (·.node)) linked).2
  have hpaired : linked.Paired := hreplay.toPaired.of_eq rfl rfl
  have hunlinked : unlinked.Paired := (hpaired.expelAll _).1
  have hdeque := (unchanged_expelAll (e.replay.2.deque.toList.map (·.node)) linked).1
  obtain ⟨hmapped, hvoid, hnil, hdead⟩ := hunlinked.clearMapped
  have hdeque' := (unchanged_expelAll unlinked.store.nodes unlinked).1
  have heq : e.clear.2 = unlinked.clearMapped.2 := by
    simp [Engine.clear, clearLinked, hd, unlinked, linked]
  refine ⟨?_, buffers_clear hs⟩
  rw [heq]
  constructor
  · rw [hmapped, hdeque', hdeque]
    exact hring
  · exact hnil
  · rw [hvoid.store.size, hnil]
    rfl
  · exact hdead

theorem emptied_unmap (h : e.store.Counted) (id : NodeId) :
    (e.unmap id).store.Counted ∧ (e.unmap id).store.emptied = e.store.emptied := by
  unfold unmap
  split
  · rename_i s ht
    exact ⟨h.removeIfMatch ht, h.emptied_removeIfMatch ht⟩
  · exact ⟨h, rfl⟩

theorem emptied_expelAll (h : e.store.Counted) (ids : List NodeId) :
    (expelAll ids e).2.store.Counted ∧ (expelAll ids e).2.store.emptied = e.store.emptied := by
  induction ids generalizing e with
  | nil => exact ⟨h, rfl⟩
  | cons id ids ih =>
    unfold expelAll
    cases hr : e.pool.retire id with
    | none =>
      simp only [expel, hr]
      exact ih h
    | some result =>
      obtain ⟨last, p⟩ := result
      simp only [expel, hr]
      obtain ⟨hcounted, hsame⟩ := emptied_unmap (e := { e with pool := p }) h id
      obtain ⟨hlast, hrest⟩ := ih hcounted
      exact ⟨hlast, hrest.trans hsame⟩

theorem emptied_foldl_unmap (h : e.store.Counted) (ids : List NodeId) :
    (ids.foldl unmap e).store.emptied = e.store.emptied := by
  induction ids generalizing e with
  | nil => rfl
  | cons id ids ih =>
    obtain ⟨hcounted, hsame⟩ := emptied_unmap h id
    exact (ih hcounted).trans hsame

/-- All that a clearing does to the store is to empty it. -/
theorem Void.store_clear (h : e.clear.2.Void) (hs : e.store.Counted) :
    e.clear.2.store = e.store.emptied := by
  rw [← Store.emptied_eq_self h.unmapped h.size]
  have hreplay : e.replay.2.store = e.store := e.unchanged_replay.2
  obtain ⟨hlinked, hfirst⟩ := emptied_expelAll (e := { e.replay.2 with
    deque := e.replay.2.deque.drain.2 }) (hreplay ▸ hs) e.replay.2.deque.drain.1
  obtain ⟨hmapped, hsecond⟩ := emptied_expelAll hlinked e.replay.2.clearLinked.2.store.nodes
  simp only [clear_eq]
  refine (emptied_foldl_unmap hmapped _).trans (hsecond.trans (hfirst.trans ?_))
  rw [hreplay]

theorem retireAll_expelAll (ids : List NodeId) (e : Engine) :
    (expelAll ids e).2.pool.retireAll = e.pool.retireAll := by
  induction ids generalizing e with
  | nil => rfl
  | cons id ids ih =>
    unfold expelAll
    cases hr : e.pool.retire id with
    | none =>
      simp only [expel, hr]
      exact ih e
    | some result =>
      obtain ⟨last, p⟩ := result
      simp only [expel, hr]
      refine (ih _).trans ?_
      rw [pool_unmap]
      exact Pool.retireAll_of_retire hr

/-- A clearing retires every live node, each once. -/
theorem Paired.pool_clear (h : e.Paired) : e.clear.2.pool = e.pool.retireAll := by
  have hlinked : e.replay.2.clearLinked.2.pool.retireAll = e.replay.2.pool.retireAll :=
    retireAll_expelAll e.replay.2.deque.drain.1 _
  have hmapped (e : Engine) : e.clearMapped.2.pool.retireAll = e.pool.retireAll := by
    refine Eq.trans ?_ (retireAll_expelAll e.store.nodes e)
    exact congrArg Pool.retireAll (unchanged_foldl_unmap _ _).1
  rw [← Pool.retireAll_eq_self h.held_clear, ← e.unchanged_replay.1, ← hlinked]
  simp only [clear_eq]
  exact hmapped _

end BoundedCache.Engine
