import BoundedCache.Proofs.Engine.Intact

namespace BoundedCache

namespace Pool

variable {p q : Pool} {id : NodeId} {last fresh : Held} {key : Key}

def retired (p : Pool) : List NodeId := (List.range p.next).filter p.isRetired

def graves (p : Pool) : List Key := p.retired.map p.key

theorem mem_retired : id ∈ p.retired ↔ id < p.next ∧ p.held id = none := by
  rw [retired, List.mem_filter, List.mem_range, isRetired, Option.isNone_iff_eq_none]

theorem nodup_retired (p : Pool) : p.retired.Nodup := List.nodup_range.filter _

/-- A replaced value buries nobody. -/
theorem graves_of_replaced (h : p.Rewrites q id last (some fresh)) : q.graves = p.graves := by
  have hretired : q.isRetired = p.isRetired := by
    funext other
    rw [isRetired, isRetired, h.held]
    split
    · rename_i he
      rw [he, h.was]
      rfl
    · rfl
  have hkey : q.key = p.key := funext h.key
  rw [graves, graves, retired, retired, h.size, hretired, hkey]

/-- A retired node joins those that were retired before. -/
theorem graves_of_retired (h : p.Rewrites q id last none) :
    q.graves.Perm (p.key id :: p.graves) := by
  have hmem (other : NodeId) : other ∈ q.retired ↔ other ∈ id :: p.retired := by
    rw [List.mem_cons, mem_retired, mem_retired, h.size, h.held]
    split
    · rename_i he
      simp [he, lt_next_of_held h.was]
    · rename_i hne
      simp [hne]
  have hnew : id ∉ p.retired := by
    rw [mem_retired, h.was]
    simp
  have hperm : q.retired.Perm (id :: p.retired) :=
    (List.perm_ext_iff_of_nodup q.nodup_retired (List.nodup_cons.mpr ⟨hnew, p.nodup_retired⟩)).mpr
      hmem
  have hkey : q.key = p.key := funext h.key
  rw [graves, hkey]
  exact hperm.map p.key

/-- A new node is alive. -/
theorem graves_add (p : Pool) (key : Key) (fresh : Held) : (p.add key fresh).graves = p.graves := by
  have hretired : (p.add key fresh).retired = p.retired := by
    have halive : (p.add key fresh).isRetired p.next = false := by
      rw [isRetired, held_add, if_pos rfl]
      rfl
    rw [retired, next_add, List.range_succ, List.filter_append,
      List.filter_cons_of_neg (by simp [halive]), List.filter_nil, List.append_nil]
    refine List.filter_congr fun other hm => ?_
    rw [isRetired, held_add, if_neg (Nat.ne_of_lt (List.mem_range.mp hm)), isRetired]
  rw [graves, graves, hretired]
  refine List.map_congr_left fun other hm => ?_
  rw [key_add, if_neg (Nat.ne_of_lt (mem_retired.mp hm).1)]

/-- What a retired node refuses. -/
theorem swapWhen_of_retired (h : id < p.next) (hh : p.held id = none) (accepts : Value → Bool)
    (next : Option Held) : p.swapWhen id accepts next = .error .retired := by
  obtain ⟨n, hn⟩ := node?_of_lt_next h
  have hnone : n.held = none := by simpa [held, hn] using hh
  rw [swapWhen, write, hn]
  simp only [Node.swapWhen_of_retired hnone]

end Pool

namespace Engine

variable {e e' e'' : Engine} {id : NodeId} {last : Held}

/-- A node that was made has left the engine, as far as it has: it is dead, and it is linked or
mapped afterwards only if it was before. -/
structure Left (id : NodeId) (e e' : Engine) : Prop where
  dead : e'.pool.held id = none
  made : id < e'.pool.next
  unlinked : id ∉ e.deque.order → id ∉ e'.deque.order
  unmapped : (∀ key, e.store.get? key ≠ some id) → ∀ key, e'.store.get? key ≠ some id

theorem Left.trans (h : Left id e e') (h' : Left id e' e'') : Left id e e'' :=
  ⟨h'.dead, h'.made, fun hm => h'.unlinked (h.unlinked hm), fun hk => h'.unmapped (h.unmapped hk)⟩

theorem not_mem_toBack {other : NodeId} {order : List NodeId} (hm : id ∉ order) (hne : id ≠ other) :
    id ∉ toBack other order := by
  rw [toBack, List.mem_append, not_or]
  exact ⟨fun h => hm (List.mem_of_mem_filter h), fun h => hne (List.mem_singleton.mp h)⟩

/-- No event brings a dead node into the order. -/
theorem not_mem_reorder {touch : Bool} {alive : NodeId → Bool} {order : List NodeId}
    (hdead : alive id = false) (hm : id ∉ order) (ev : Event) :
    id ∉ ev.reorder touch alive order := by
  unfold Event.reorder
  split
  · split
    · rename_i hlive
      exact not_mem_toBack hm fun he => by simp [← he, hdead] at hlive
    · exact hm
  · split
    · rename_i hlive
      rw [List.mem_append, not_or, List.mem_singleton]
      exact ⟨hm, fun he => by simp [← he, hdead] at hlive⟩
    · exact hm
  · split
    · rename_i hlive
      exact not_mem_toBack hm fun he => by simp [← he, hdead] at hlive
    · exact hm
  · exact fun h => hm (List.mem_of_mem_filter h)

/-- One change brings no dead node back. -/
theorem Left.of_change (h : Change e e') (hd : e.deque.WellFormed) (hmade : id < e.pool.next)
    (hdead : e.pool.held id = none) : Left id e e' := by
  have hgrows := (Evolves.of_change h).pool
  have hmade' : id < e'.pool.next := Nat.lt_of_lt_of_le hmade hgrows.next_le
  have hnew : some e.pool.next ≠ some id := fun he => Nat.lt_irrefl id (Option.some.inj he ▸ hmade)
  refine ⟨hgrows.held_eq_none hmade hdead, hmade', fun hm => ?_, fun hk key => ?_⟩
  · cases h with
    | rebuffer | rewrite | insert | supersede | unmap => exact hm
    | apply ev =>
      rw [(order_apply hd ev).2]
      exact not_mem_reorder (by simp [Pool.alive, hdead]) hm ev
    | pop hp =>
      rcases hd.popFront? with ⟨hnone, _⟩ | ⟨l, rest, d, hx, hsome, _, hrest, _⟩
      · cases hp.symm.trans hnone
      · cases hp.symm.trans hsome
        rw [Deque.order, hx, List.map_cons, List.mem_cons, not_or] at hm
        rw [Deque.order, hrest]
        exact hm.2
    | weigh hs w =>
      rw [hd.order_setWeight hs w]
      exact hm
  · cases h with
    | rebuffer | rewrite | pop | weigh => exact hk key
    | apply ev =>
      rw [store_apply]
      exact hk key
    | insert ht =>
      rw [Store.get?_insertIfAbsent ht]
      split
      · exact hnew
      · exact hk key
    | supersede ht =>
      rw [Store.get?_replaceIfMatch ht]
      split
      · exact hnew
      · exact hk key
    | unmap ht =>
      rw [Store.get?_removeIfMatch ht]
      split
      · simp
      · exact hk key

/-- No number of changes does. -/
theorem Left.of_changes (h : Changes e e') (hd : e.deque.WellFormed) (hmade : id < e.pool.next)
    (hdead : e.pool.held id = none) : Left id e e' := by
  induction h with
  | refl => exact ⟨hdead, hmade, fun hm => hm, fun hk => hk⟩
  | tail hlater hstep ih => exact ih.trans (.of_change hstep (Changes.wellFormed hlater hd) ih.made ih.dead)

theorem graves_expel (h : e.expel id = some (last, e')) :
    e'.pool.graves.Perm (e.pool.key id :: e.pool.graves) := by
  obtain ⟨⟨held, p⟩, hr, he⟩ := Option.map_eq_some_iff.mp h
  simp only [Prod.mk.injEq] at he
  rw [← he.2, pool_unmap]
  exact Pool.graves_of_retired (Pool.rewrites_of_retire hr)

/-- An eviction buries its victims. -/
theorem graves_evictUpTo (capacity n : Nat) (e : Engine) :
    (evictUpTo capacity n e).2.pool.graves.Perm
      ((evictUpTo capacity n e).1.map (·.key) ++ e.pool.graves) := by
  induction n generalizing e with
  | zero => exact .refl _
  | succ n ih =>
    unfold evictUpTo
    split
    · exact .refl _
    · cases hp : e.deque.popFront? with
      | none => exact .refl _
      | some popped =>
        obtain ⟨id, d⟩ := popped
        dsimp only
        cases hx : ({ e with deque := d } : Engine).expel id with
        | none => exact ih _
        | some result =>
          obtain ⟨last, e1⟩ := result
          have hmade : id < e.pool.next := by
            obtain ⟨⟨held, p⟩, hr, _⟩ := Option.map_eq_some_iff.mp hx
            exact Pool.lt_next_of_held (Pool.rewrites_of_retire hr).was
          have hkey : (evictUpTo capacity n e1).2.pool.key id = e.pool.key id :=
            (Evolves.of_changes ((changes_expel hx).trans (changes_evictUpTo ..))).pool.key_eq hmade
          simp only [List.map_cons, hkey]
          exact (ih e1).trans (((graves_expel hx).append_left _).trans List.perm_middle)

/-- A drain buries its victims. -/
theorem graves_run (e : Engine) (capacity : Nat) :
    (e.run capacity).2.pool.graves.Perm
      ((e.run capacity).1.victims.map (·.key) ++ e.pool.graves) := by
  have h := graves_evictUpTo capacity e.replay.2.deque.links.size e.replay.2
  rw [e.unchanged_replay.1] at h
  exact h

/-- As many nodes are buried as were still alive. -/
theorem graves_expelAll (ids : List NodeId) (e : Engine) :
    ∃ keys, keys.length = (expelAll ids e).1 ∧
      (expelAll ids e).2.pool.graves.Perm (keys ++ e.pool.graves) := by
  induction ids generalizing e with
  | nil => exact ⟨[], rfl, .refl _⟩
  | cons id ids ih =>
    unfold expelAll
    cases hx : e.expel id with
    | none => exact ih e
    | some result =>
      obtain ⟨last, e1⟩ := result
      obtain ⟨keys, hlength, hperm⟩ := ih e1
      refine ⟨e.pool.key id :: keys, congrArg (· + 1) hlength, ?_⟩
      exact hperm.trans (((graves_expel hx).append_left _).trans List.perm_middle)

/-- A clearing buries as many nodes as it counts. -/
theorem graves_clear (e : Engine) :
    ∃ keys, keys.length = e.clear.1 ∧ e.clear.2.pool.graves.Perm (keys ++ e.pool.graves) := by
  have hlinked (e : Engine) : ∃ keys, keys.length = e.clearLinked.1 ∧
      e.clearLinked.2.pool.graves.Perm (keys ++ e.pool.graves) :=
    graves_expelAll e.deque.drain.1 { e with deque := e.deque.drain.2 }
  have hmapped (e : Engine) : ∃ keys, keys.length = e.clearMapped.1 ∧
      e.clearMapped.2.pool.graves.Perm (keys ++ e.pool.graves) := by
    obtain ⟨keys, hlength, hperm⟩ := graves_expelAll e.store.nodes e
    refine ⟨keys, hlength, ?_⟩
    have hpool : e.clearMapped.2.pool = (expelAll e.store.nodes e).2.pool :=
      (unchanged_foldl_unmap _ _).1
    rw [hpool]
    exact hperm
  simp only [clear_eq]
  obtain ⟨linked, hlength, hperm⟩ := hlinked e.replay.2
  obtain ⟨mapped, hlength', hperm'⟩ := hmapped e.replay.2.clearLinked.2
  refine ⟨mapped ++ linked, ?_, ?_⟩
  · rw [List.length_append, hlength, hlength', Nat.add_comm]
  · rw [e.unchanged_replay.1] at hperm
    rw [List.append_assoc]
    exact hperm'.trans (hperm.append_left _)

end Engine

end BoundedCache
