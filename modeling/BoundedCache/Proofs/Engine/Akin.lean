import BoundedCache.Proofs.Deque.Akin
import BoundedCache.Proofs.Engine.Recency

namespace BoundedCache.Engine

variable {e e' : Engine} {id : NodeId} {last : Held} {b : Buffers}

def Akin (e e' : Engine) : Prop := ∃ d, e' = { e with deque := d } ∧ e.deque.Akin d

/-- Retiring and unmapping a node does not look at the deque. -/
theorem unmap_withDeque (e : Engine) (d : Deque) (id : NodeId) :
    ({ e with deque := d } : Engine).unmap id = { e.unmap id with deque := d } := by
  unfold unmap
  dsimp only
  cases e.store.removeIfMatch (e.pool.key id) id <;> rfl

theorem expel_withDeque (e : Engine) (d : Deque) (id : NodeId) :
    ({ e with deque := d } : Engine).expel id =
      (e.expel id).map fun (last, e) => (last, { e with deque := d }) := by
  simp only [expel, Option.map_map]
  refine Option.map_congr fun result _ => ?_
  exact congrArg (Prod.mk result.1) (unmap_withDeque { e with pool := result.2 } d id)

theorem expelAll_withDeque (ids : List NodeId) (e : Engine) (d : Deque) :
    expelAll ids ({ e with deque := d } : Engine) =
      ((expelAll ids e).1, { (expelAll ids e).2 with deque := d }) := by
  induction ids generalizing e with
  | nil => rfl
  | cons id ids ih =>
    unfold expelAll
    rw [expel_withDeque]
    cases e.expel id with
    | none => exact ih e
    | some result =>
      simp only [Option.map_some]
      rw [ih result.2]

theorem foldl_unmap_withDeque (ids : List NodeId) (e : Engine) (d : Deque) :
    ids.foldl unmap ({ e with deque := d } : Engine) =
      { ids.foldl unmap e with deque := d } := by
  induction ids generalizing e with
  | nil => rfl
  | cons id ids ih => rw [List.foldl_cons, unmap_withDeque, ih, List.foldl_cons]

theorem evictUpTo_of_nil (h : e.deque.WellFormed) (hx : e.deque.toList = []) (capacity n : Nat) :
    evictUpTo capacity n e = ([], e) := by
  cases n with
  | zero => rfl
  | succ n =>
    unfold evictUpTo
    rcases h.popFront? with ⟨hp, _, _⟩ | ⟨l, rest, d, hl, _⟩
    · rw [hp]
      exact ite_self _
    · simp [hx] at hl

namespace Akin

theorem pool_eq (h : e.Akin e') : e'.pool = e.pool := by
  obtain ⟨d, rfl, _⟩ := h
  rfl

theorem store_eq (h : e.Akin e') : e'.store = e.store := by
  obtain ⟨d, rfl, _⟩ := h
  rfl

theorem buffers_eq (h : e.Akin e') : e'.buffers = e.buffers := by
  obtain ⟨d, rfl, _⟩ := h
  rfl

theorem deque (h : e.Akin e') : e.deque.Akin e'.deque := by
  obtain ⟨d, rfl, hd⟩ := h
  exact hd

theorem withBuffers (h : e.Akin e') (b : Buffers) :
    Akin { e with buffers := b } { e' with buffers := b } := by
  obtain ⟨d, rfl, hd⟩ := h
  exact ⟨d, rfl, hd⟩

/-- A write changes the same nodes and mappings of both. -/
theorem rewrite (h : e.Akin e') (p : Pool) (s : Store) :
    Akin { e with pool := p, store := s } { e' with pool := p, store := s } := by
  obtain ⟨d, rfl, hd⟩ := h
  exact ⟨d, rfl, hd⟩

theorem apply (h : e.Akin e') (ev : Event) : (e.apply ev).Akin (e'.apply ev) := by
  obtain ⟨d, rfl, hd⟩ := h
  obtain ⟨kind, id⟩ := ev
  unfold Engine.apply
  dsimp only
  cases hs : e.deque.slotOf id with
  | none =>
    rw [hd.slotOf_eq_none_iff.mpr hs]
    cases kind with
    | read | update | remove => exact ⟨d, rfl, hd⟩
    | add =>
      cases e.pool.held id with
      | none => exact ⟨d, rfl, hd⟩
      | some held => exact ⟨_, rfl, hd.pushBack hs held.weight⟩
  | some slot =>
    obtain ⟨slot', hs'⟩ : ∃ slot', d.slotOf id = some slot' := by
      rw [← Option.ne_none_iff_exists', Ne, hd.slotOf_eq_none_iff, hs]
      simp
    rw [hs']
    cases kind with
    | remove =>
      obtain ⟨_, _, d1, d1', hu, hu', hd1⟩ := hd.unlink hs hs'
      simp only [hu, hu']
      exact ⟨d1', rfl, hd1⟩
    | add => exact ⟨d, rfl, hd⟩
    | read =>
      cases e.pool.held id with
      | none => exact ⟨d, rfl, hd⟩
      | some held => exact ⟨_, rfl, hd.moveToBack hs hs'⟩
    | update =>
      cases e.pool.held id with
      | none => exact ⟨d, rfl, hd⟩
      | some held =>
        have hset := hd.setWeight hs hs' held.weight
        have hslot := (hd.left.setWeight hs held.weight).2.2 id
        have hslot' := (hd.right.setWeight hs' held.weight).2.2 id
        refine ⟨_, rfl, ?_⟩
        dsimp only
        split
        · exact hset.moveToBack (hslot.trans hs) (hslot'.trans hs')
        · exact hset

theorem applyAll (h : e.Akin e') (events : List Event) :
    (e.applyAll events).Akin (e'.applyAll events) := by
  induction events generalizing e e' with
  | nil => exact h
  | cons ev events ih => exact ih (h.apply ev)

theorem replay (h : e.Akin e') (hs : e.buffers.Sound) : e.replay.2.Akin e'.replay.2 := by
  have hb := h.buffers_eq
  rw [replay_eq e hs, replay_eq e' (hb ▸ hs), hb]
  exact (h.applyAll _).withBuffers _

theorem evictUpTo_of_nil (h : e.Akin e') (hx : e.deque.toList = []) (capacity n n' : Nat) :
    (Engine.evictUpTo capacity n' e').1 = (Engine.evictUpTo capacity n e).1 ∧
      (Engine.evictUpTo capacity n e).2.Akin (Engine.evictUpTo capacity n' e').2 := by
  have hx' : e'.deque.toList = [] := by
    rw [← List.length_eq_zero_iff, h.deque.length_eq, hx]
    rfl
  rw [Engine.evictUpTo_of_nil h.deque.left hx, Engine.evictUpTo_of_nil h.deque.right hx']
  exact ⟨rfl, h⟩

/-- Enough rounds evict the same pairs from both. -/
theorem evictUpTo (h : e.Akin e') {capacity n n' : Nat} (hn : e.deque.toList.length ≤ n)
    (hn' : e.deque.toList.length ≤ n') :
    (Engine.evictUpTo capacity n' e').1 = (Engine.evictUpTo capacity n e).1 ∧
      (Engine.evictUpTo capacity n e).2.Akin (Engine.evictUpTo capacity n' e').2 := by
  induction n generalizing n' e e' with
  | zero => exact h.evictUpTo_of_nil (List.length_eq_zero_iff.mp (Nat.le_zero.mp hn)) _ _ _
  | succ n ih =>
    cases n' with
    | zero => exact h.evictUpTo_of_nil (List.length_eq_zero_iff.mp (Nat.le_zero.mp hn')) _ _ _
    | succ n' =>
      obtain ⟨d, rfl, hd⟩ := h
      unfold Engine.evictUpTo
      dsimp only
      rw [hd.weightedSize_eq]
      split
      · exact ⟨rfl, d, rfl, hd⟩
      · rcases hd.popFront? with ⟨_, hp, hp'⟩ | ⟨id, d1, d1', hp, hp', hd1, hlength⟩
        · simp only [hp, hp']
          exact ⟨trivial, d, rfl, hd⟩
        · have hle : d1.toList.length ≤ n ∧ d1.toList.length ≤ n' := by omega
          simp only [hp, hp', expel_withDeque]
          cases e.expel id with
          | none =>
            have hpop : Akin { e with deque := d1 } { e with deque := d1' } := ⟨d1', rfl, hd1⟩
            exact ih hpop hle.1 hle.2
          | some result =>
            obtain ⟨last, e1⟩ := result
            have hpop : Akin { e1 with deque := d1 } { e1 with deque := d1' } := ⟨d1', rfl, hd1⟩
            obtain ⟨hvictims, hlater⟩ := ih hpop hle.1 hle.2
            simp only [Option.map_some, hvictims, hlater.pool_eq]
            exact ⟨trivial, hlater⟩

theorem evict (h : e.Akin e') (capacity : Nat) :
    (e'.evict capacity).1 = (e.evict capacity).1 ∧
      (e.evict capacity).2.Akin (e'.evict capacity).2 := by
  have hlength := Nat.le_of_lt h.deque.left.length_lt_size
  have hlength' := Nat.le_of_lt h.deque.right.length_lt_size
  rw [h.deque.length_eq] at hlength'
  exact h.evictUpTo hlength hlength'

theorem expelAll (h : e.Akin e') (ids : List NodeId) :
    (Engine.expelAll ids e').1 = (Engine.expelAll ids e).1 ∧
      (Engine.expelAll ids e).2.Akin (Engine.expelAll ids e').2 := by
  obtain ⟨d, rfl, hd⟩ := h
  rw [expelAll_withDeque]
  exact ⟨rfl, d, rfl, by rwa [(unchanged_expelAll ids e).1]⟩

theorem clearLinked (h : e.Akin e') :
    e'.clearLinked.1 = e.clearLinked.1 ∧ e.clearLinked.2.Akin e'.clearLinked.2 := by
  obtain ⟨d, rfl, hd⟩ := h
  obtain ⟨hnodes, hleft⟩ := hd.drain
  have hunlinked : Akin { e with deque := e.deque.drain.2 } { e with deque := d.drain.2 } :=
    ⟨d.drain.2, rfl, hleft⟩
  have hall := hunlinked.expelAll e.deque.drain.1
  have heq (e : Engine) : e.clearLinked =
      Engine.expelAll e.deque.drain.1 { e with deque := e.deque.drain.2 } := rfl
  rw [heq, heq, hnodes]
  exact hall

theorem foldl_unmap (h : e.Akin e') (ids : List NodeId) :
    (ids.foldl unmap e).Akin (ids.foldl unmap e') := by
  obtain ⟨d, rfl, hd⟩ := h
  exact ⟨d, foldl_unmap_withDeque ids e d, by rwa [(unchanged_foldl_unmap ids e).2.1]⟩

theorem clearMapped (h : e.Akin e') :
    e'.clearMapped.1 = e.clearMapped.1 ∧ e.clearMapped.2.Akin e'.clearMapped.2 := by
  obtain ⟨hcount, hexpelled⟩ := h.expelAll e.store.nodes
  have hmapped (e : Engine) : e.clearMapped = ((Engine.expelAll e.store.nodes e).1,
      e.store.nodes.foldl unmap (Engine.expelAll e.store.nodes e).2) := rfl
  rw [hmapped, hmapped, h.store_eq]
  exact ⟨hcount, hexpelled.foldl_unmap _⟩

/-- A clearing retires as many nodes. -/
theorem clear (h : e.Akin e') (hs : e.buffers.Sound) :
    e'.clear.1 = e.clear.1 ∧ e.clear.2.Akin e'.clear.2 := by
  obtain ⟨hlinked, hleft⟩ := (h.replay hs).clearLinked
  obtain ⟨hmapped, hend⟩ := hleft.clearMapped
  simp only [clear_eq]
  rw [hlinked, hmapped]
  exact ⟨rfl, hend⟩

end Akin

/-- With nothing pending, each link has the weight of its node. -/
theorem Accounted.contents_eq (h : Accounted [] e) :
    e.deque.contents =
      e.deque.order.map fun id => (id, ((e.pool.held id).map (·.weight)).getD 0) := by
  rw [Deque.contents, Deque.order, List.map_map]
  refine List.map_congr_left fun l hl => ?_
  obtain ⟨held, hheld, hw⟩ := h.exists_held (by simp) hl
  simp [hheld, hw]

/-- With nothing pending, nodes and recency order leave only the slots open. -/
theorem Accounted.akin (h : Accounted [] e) (h' : Accounted [] e') (hpool : e'.pool = e.pool)
    (hstore : e'.store = e.store) (hbuffers : e'.buffers = e.buffers)
    (htouch : e'.touchOnUpdate = e.touchOnUpdate) (horder : e'.deque.order = e.deque.order) :
    e.Akin e' := by
  refine ⟨e'.deque, ?_, h.deque, h'.deque, ?_⟩
  · obtain ⟨pool, store, buffers, deque, touch⟩ := e'
    cases hpool
    cases hstore
    cases hbuffers
    cases htouch
    rfl
  · rw [h.contents_eq, h'.contents_eq, horder, hpool]

end BoundedCache.Engine
