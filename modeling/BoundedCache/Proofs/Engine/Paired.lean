import BoundedCache.Proofs.Engine.Evolves

namespace BoundedCache.Engine

variable {e e' : Engine} {id : NodeId} {last : Held} {p : Pool} {s : Store} {key : Key} {fresh : Held}

/-- Exactly the live nodes are mapped. -/
structure Paired (e : Engine) : Prop where
  store : e.store.Sound e.pool
  mapped : ∀ id, e.store.get? (e.pool.key id) = some id ↔ (e.pool.held id).isSome

namespace Paired

/-- Buffers and deque play no part. -/
theorem of_eq (h : e.Paired) (hp : e'.pool = e.pool) (hs : e'.store = e.store) : e'.Paired :=
  ⟨hs ▸ hp ▸ h.store, hs ▸ hp ▸ h.mapped⟩

theorem alive (h : e.Paired) (hk : e.store.get? key = some id) : ∃ last, e.pool.held id = some last :=
  Option.isSome_iff_exists.mp ((h.mapped id).mp (h.store.eq_key hk))

/-- A live node is mapped, so that it can be unmapped. -/
theorem exists_removeIfMatch (h : e.Paired) (hl : e.pool.held id = some last) :
    ∃ s, e.store.removeIfMatch (e.pool.key id) id = some s := by
  have hk := (h.mapped id).mpr (by simp [hl])
  exact ⟨_, if_pos hk⟩

/-- A new value is a value. -/
theorem replace (h : e.Paired) (hq : e.pool.Rewrites p id last (some fresh)) :
    Paired { e with pool := p } := by
  refine ⟨h.store.grows hq.grows, fun other => ?_⟩
  have hmapped := h.mapped other
  simp only [hq.key, hq.held]
  split
  · rename_i he
    subst he
    simpa [hq.was] using hmapped
  · exact hmapped

/-- A new node is alive and mapped. -/
theorem insert (h : e.Paired) (ht : e.store.insertIfAbsent key e.pool.next = .ok s) :
    Paired { e with pool := e.pool.add key fresh, store := s } := by
  obtain ⟨hk, _, _⟩ := Store.insertIfAbsent_eq_ok ht
  refine ⟨h.store.add ht fresh, fun id => ?_⟩
  simp only [Pool.key_add, Pool.held_add, Store.get?_insertIfAbsent ht]
  by_cases hid : id = e.pool.next
  · simp [hid]
  · simp only [hid, if_false]
    split
    · rename_i hkey
      have hdead := h.mapped id
      rw [hkey, hk] at hdead
      simpa [Ne.symm hid] using hdead
    · exact h.mapped id

/-- A node that is retired and unmapped is neither alive nor mapped. -/
theorem retire (h : e.Paired) (hq : e.pool.Rewrites p id last none)
    (ht : e.store.removeIfMatch (e.pool.key id) id = some s) :
    Paired { e with pool := p, store := s } := by
  have hmapped := Store.get?_of_removeIfMatch ht
  refine ⟨(h.store.removeIfMatch ht).grows hq.grows, fun other => ?_⟩
  simp only [hq.key, hq.held, Store.get?_removeIfMatch ht]
  by_cases he : other = id
  · simp [he]
  · simp only [he, if_false]
    split
    · rename_i hkey
      have hdead := h.mapped other
      rw [hkey, hmapped] at hdead
      simpa [Ne.symm he] using hdead
    · exact h.mapped other

/-- Expelling a node retires it and unmaps it. -/
theorem expel_eq (h : e.Paired) (hx : e.expel id = some (last, e')) :
    ∃ p s, e.pool.Rewrites p id last none ∧
      e.store.removeIfMatch (e.pool.key id) id = some s ∧
      e' = { e with pool := p, store := s } := by
  obtain ⟨⟨held, p⟩, hr, he⟩ := Option.map_eq_some_iff.mp hx
  simp only [Prod.mk.injEq] at he
  obtain ⟨rfl, rfl⟩ := he
  have hq := Pool.rewrites_of_retire hr
  obtain ⟨s, ht⟩ := h.exists_removeIfMatch hq.was
  exact ⟨p, s, hq, ht, by simp [unmap, hq.key, ht]⟩

theorem expel (h : e.Paired) (hx : e.expel id = some (last, e')) :
    e'.Paired ∧ e'.pool.held id = none ∧
      ∀ other, e.pool.held other = none → e'.pool.held other = none := by
  obtain ⟨p, s, hq, ht, rfl⟩ := h.expel_eq hx
  exact ⟨h.retire hq ht, by simp [hq.held], fun other ho => by simp [hq.held, ho]⟩

theorem expelAll (h : e.Paired) (ids : List NodeId) :
    (Engine.expelAll ids e).2.Paired ∧
      (∀ id ∈ ids, (Engine.expelAll ids e).2.pool.held id = none) ∧
      ∀ other, e.pool.held other = none → (Engine.expelAll ids e).2.pool.held other = none := by
  induction ids generalizing e with
  | nil => exact ⟨h, by simp, fun _ ho => ho⟩
  | cons id ids ih =>
    unfold Engine.expelAll
    cases hx : e.expel id with
    | none =>
      obtain ⟨hp, hids, hother⟩ := ih h
      have hid := expel_eq_none_iff.mp hx
      exact ⟨hp, List.forall_mem_cons.mpr ⟨hother id hid, hids⟩, hother⟩
    | some result =>
      obtain ⟨last, e1⟩ := result
      obtain ⟨h1, hid, hold⟩ := h.expel hx
      obtain ⟨hp, hids, hother⟩ := ih h1
      exact ⟨hp, List.forall_mem_cons.mpr ⟨hother id hid, hids⟩,
        fun other ho => hother other (hold other ho)⟩

/-- Once the mapped nodes are expelled nothing is alive or mapped. -/
theorem clearMapped (h : e.Paired) :
    e.clearMapped.2 = (Engine.expelAll e.store.nodes e).2 ∧ e.clearMapped.2.Paired ∧
      e.clearMapped.2.store.entries = [] ∧ ∀ id, e.clearMapped.2.pool.held id = none := by
  obtain ⟨hp, hids, hother⟩ := h.expelAll e.store.nodes
  have hdead (id : NodeId) : (Engine.expelAll e.store.nodes e).2.pool.held id = none := by
    cases hh : e.pool.held id with
    | none => exact hother id hh
    | some last =>
      have hk := (h.mapped id).mpr (by simp [hh])
      exact hids id (List.mem_map.mpr ⟨_, h.store.mem_iff.mpr hk, rfl⟩)
  have hget (k : Key) : (Engine.expelAll e.store.nodes e).2.store.get? k = none := by
    cases hk : (Engine.expelAll e.store.nodes e).2.store.get? k with
    | none => rfl
    | some id =>
      obtain ⟨last, hl⟩ := hp.alive hk
      exact absurd (hl.symm.trans (hdead id)) (by simp)
  have hnil : (Engine.expelAll e.store.nodes e).2.store.entries = [] := hp.store.entries_eq_nil hget
  have hfold (ids : List NodeId) :
      ids.foldl unmap (Engine.expelAll e.store.nodes e).2 = (Engine.expelAll e.store.nodes e).2 := by
    induction ids with
    | nil => rfl
    | cons id ids ih =>
      have hsame : (Engine.expelAll e.store.nodes e).2.unmap id =
          (Engine.expelAll e.store.nodes e).2 := by
        simp [unmap, Store.removeIfMatch, hget]
      rw [List.foldl_cons, hsame, ih]
  have heq : e.clearMapped.2 = (Engine.expelAll e.store.nodes e).2 := hfold _
  rw [heq]
  exact ⟨rfl, hp, hnil, hdead⟩

theorem apply (h : e.Paired) (ev : Event) : (e.apply ev).Paired := by
  obtain ⟨d, hd⟩ := exists_apply_eq e ev
  rw [hd]
  exact h.of_eq rfl rfl

theorem replay (h : e.Paired) : e.replay.2.Paired :=
  Buffered.drain_rel (R := fun e e' : Engine => e.Paired → e'.Paired) (fun _ h => h)
    (fun f g h => g (f h)) (fun _ _ _ h => h.of_eq rfl rfl) (fun ev _ h => h.apply ev) e h

theorem evictUpTo (h : e.Paired) (capacity n : Nat) : (evictUpTo capacity n e).2.Paired := by
  induction n generalizing e with
  | zero => exact h
  | succ n ih =>
    unfold Engine.evictUpTo
    split
    · exact h
    · cases e.deque.popFront? with
      | none => exact h
      | some popped =>
        obtain ⟨id, d⟩ := popped
        have hpop : Paired { e with deque := d } := h.of_eq rfl rfl
        dsimp only
        cases hx : ({ e with deque := d } : Engine).expel id with
        | none => exact ih hpop
        | some result => exact ih (hpop.expel hx).1

theorem run (h : e.Paired) (capacity : Nat) : (e.run capacity).2.Paired :=
  h.replay.evictUpTo capacity _

theorem clearLinked (h : e.Paired) : e.clearLinked.2.Paired := by
  unfold Engine.clearLinked
  rcases e.deque.drain with ⟨nodes, d⟩
  exact (expelAll (e := { e with deque := d }) (h.of_eq rfl rfl) nodes).1

theorem clear (h : e.Paired) : e.clear.2.Paired := h.replay.clearLinked.clearMapped.2.1

/-- A clearing leaves no node alive. -/
theorem held_clear (h : e.Paired) (id : NodeId) : e.clear.2.pool.held id = none :=
  h.replay.clearLinked.clearMapped.2.2.2 id

end Paired

/-- Expelling nodes touches neither the deque nor the buffers. -/
theorem unchanged_expelAll (ids : List NodeId) (e : Engine) :
    (expelAll ids e).2.deque = e.deque ∧ (expelAll ids e).2.buffers = e.buffers := by
  induction ids generalizing e with
  | nil => exact ⟨rfl, rfl⟩
  | cons id ids ih =>
    unfold expelAll
    cases hx : e.expel id with
    | none => exact ih e
    | some result =>
      obtain ⟨last, e1⟩ := result
      obtain ⟨hd, hb⟩ := ih e1
      exact ⟨hd.trans (deque_expel hx), hb.trans (buffers_expel hx)⟩

/-- Nor does unmapping them, which does not touch the nodes either. -/
theorem unchanged_foldl_unmap (ids : List NodeId) (e : Engine) :
    (ids.foldl unmap e).pool = e.pool ∧ (ids.foldl unmap e).deque = e.deque ∧
      (ids.foldl unmap e).buffers = e.buffers := by
  induction ids generalizing e with
  | nil => exact ⟨rfl, rfl, rfl⟩
  | cons id ids ih =>
    obtain ⟨hp, hd, hb⟩ := ih (e.unmap id)
    exact ⟨hp.trans (pool_unmap e id), hd.trans (deque_unmap e id), hb.trans (buffers_unmap e id)⟩

end BoundedCache.Engine
