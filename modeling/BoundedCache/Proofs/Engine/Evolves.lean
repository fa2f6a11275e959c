import BoundedCache.Proofs.Engine.Changes

namespace BoundedCache

namespace Engine

variable {e e' e'' : Engine} {id : NodeId} {last : Held}

structure Evolves (e e' : Engine) : Prop where
  pool : e.pool.Grows e'.pool
  store : e.store.Sound e.pool → e'.store.Sound e'.pool
  /-- Other events may wait in the buffers. -/
  buffers : e'.buffers.emptied = e.buffers.emptied
  touch : e'.touchOnUpdate = e.touchOnUpdate

namespace Evolves

theorem refl (e : Engine) : e.Evolves e := ⟨.refl _, id, rfl, rfl⟩

theorem trans (h : e.Evolves e') (h' : e'.Evolves e'') : e.Evolves e'' :=
  ⟨h.pool.trans h'.pool, fun hs => h'.store (h.store hs), h'.buffers.trans h.buffers,
    h'.touch.trans h.touch⟩

theorem room (h : e.Evolves e') : e'.buffers.room = e.buffers.room :=
  Buffers.room_eq_of_emptied h.buffers

theorem count (h : e.Evolves e') : e'.buffers.count = e.buffers.count :=
  Buffers.count_eq_of_emptied h.buffers

/-- The deque plays no part. -/
theorem relink (e : Engine) (d : Deque) : e.Evolves { e with deque := d } :=
  ⟨.refl _, fun hs => hs, rfl, rfl⟩

theorem rebuffer (e : Engine) {b : Buffers} (hb : b.emptied = e.buffers.emptied) :
    e.Evolves { e with buffers := b } :=
  ⟨.refl _, fun hs => hs, hb, rfl⟩

theorem write {p : Pool} (h : e.pool.Grows p) : e.Evolves { e with pool := p } :=
  ⟨h, fun hs => hs.grows h, rfl, rfl⟩

theorem of_change (h : Change e e') : e.Evolves e' := by
  cases h with
  | rebuffer b hb => exact rebuffer e hb
  | apply ev =>
    obtain ⟨d, hd⟩ := exists_apply_eq e ev
    rw [hd]
    exact relink e d
  | rewrite hq => exact write hq.grows
  | insert ht => exact ⟨Pool.grows_add _ _ _, fun hs => hs.add ht _, rfl, rfl⟩
  | supersede ht => exact ⟨Pool.grows_add _ _ _, fun hs => hs.supersede ht _, rfl, rfl⟩
  | unmap ht => exact ⟨.refl _, fun hs => hs.removeIfMatch ht, rfl, rfl⟩
  | pop | weigh => exact relink e _

theorem of_changes (h : Changes e e') : e.Evolves e' := by
  induction h with
  | refl => exact refl e
  | tail _ hstep ih => exact ih.trans (of_change hstep)

end Evolves

@[simp] theorem pool_unmap (e : Engine) (id : NodeId) : (e.unmap id).pool = e.pool := by
  unfold unmap
  split <;> rfl

@[simp] theorem deque_unmap (e : Engine) (id : NodeId) : (e.unmap id).deque = e.deque := by
  unfold unmap
  split <;> rfl

@[simp] theorem buffers_unmap (e : Engine) (id : NodeId) : (e.unmap id).buffers = e.buffers := by
  unfold unmap
  split <;> rfl

theorem expel_eq_none_iff : e.expel id = none ↔ e.pool.held id = none := by
  rw [← Pool.retire_eq_none_iff]
  exact Option.map_eq_none_iff

theorem held_of_expel_eq (h : e.expel id = some (last, e')) : e.pool.held id = some last := by
  obtain ⟨⟨held, p⟩, hr, he⟩ := Option.map_eq_some_iff.mp h
  simp only [Prod.mk.injEq] at he
  exact he.1 ▸ (Pool.rewrites_of_retire hr).was

/-- Expelling a node does not touch the deque. -/
theorem deque_expel (h : e.expel id = some (last, e')) : e'.deque = e.deque := by
  obtain ⟨⟨held, p⟩, _, he⟩ := Option.map_eq_some_iff.mp h
  simp only [Prod.mk.injEq] at he
  rw [← he.2, deque_unmap]

theorem buffers_expel (h : e.expel id = some (last, e')) : e'.buffers = e.buffers := by
  obtain ⟨⟨held, p⟩, _, he⟩ := Option.map_eq_some_iff.mp h
  simp only [Prod.mk.injEq] at he
  rw [← he.2, buffers_unmap]

/-- Expelling a node gives no node a value. -/
theorem held_of_expel {other : NodeId} {held : Held} (h : e.expel id = some (last, e'))
    (hh : e'.pool.held other = some held) : e.pool.held other = some held := by
  obtain ⟨⟨old, p⟩, hr, he⟩ := Option.map_eq_some_iff.mp h
  simp only [Prod.mk.injEq] at he
  obtain ⟨rfl, rfl⟩ := he
  rw [pool_unmap, (Pool.rewrites_of_retire hr).held] at hh
  split at hh
  · cases hh
  · exact hh

/-- An eviction gives no node a value. -/
theorem held_of_evictUpTo {other : NodeId} {held : Held} (capacity n : Nat) (e : Engine)
    (hh : (evictUpTo capacity n e).2.pool.held other = some held) :
    e.pool.held other = some held := by
  induction n generalizing e with
  | zero => exact hh
  | succ n ih =>
    unfold evictUpTo at hh
    split at hh
    · exact hh
    · cases hp : e.deque.popFront? with
      | none =>
        rw [hp] at hh
        exact hh
      | some popped =>
        obtain ⟨id, d⟩ := popped
        simp only [hp] at hh
        cases hx : ({ e with deque := d } : Engine).expel id with
        | none =>
          rw [hx] at hh
          exact ih { e with deque := d } hh
        | some result =>
          obtain ⟨last, e1⟩ := result
          rw [hx] at hh
          exact held_of_expel (e := { e with deque := d }) hx (ih e1 hh)

/-- A victim is shown with its key, which it keeps. -/
theorem key_evictUpTo {p : Pool} {next : Option Held} (hq : e.pool.Rewrites p id last next)
    (capacity n : Nat) (d : Deque) (s : Store) :
    (evictUpTo capacity n { e with deque := d, pool := p, store := s }).2.pool.key id =
      e.pool.key id := by
  have hlt : id < p.next := Nat.lt_of_lt_of_eq (Pool.lt_next_of_held hq.was) hq.size.symm
  exact ((Evolves.of_changes (changes_evictUpTo ..)).pool.key_eq hlt).trans (hq.key id)

/-- An eviction does not touch the buffers. -/
theorem buffers_evictUpTo (capacity n : Nat) (e : Engine) :
    (evictUpTo capacity n e).2.buffers = e.buffers := by
  induction n generalizing e with
  | zero => rfl
  | succ n ih =>
    unfold evictUpTo
    split
    · rfl
    · cases e.deque.popFront? with
      | none => rfl
      | some popped =>
        obtain ⟨id, d⟩ := popped
        dsimp only
        cases hx : ({ e with deque := d } : Engine).expel id with
        | none => exact ih _
        | some result =>
          obtain ⟨last, e'⟩ := result
          have hbuffers := buffers_expel hx
          exact (ih e').trans hbuffers

end Engine

end BoundedCache
