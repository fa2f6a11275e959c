import Mathlib.Order.Bounds.Basic
import BoundedCache.Proofs.Engine.Recency
import BoundedCache.Workbench

namespace BoundedCache

variable {xs : List Linked} {capacity : Nat}

def burden (xs : List Linked) : Nat := (xs.map (·.weight.toNat)).sum

/-- How many of the first nodes have to go, so that the others fit. -/
def excess (capacity : Nat) : List Linked → Nat
  | [] => 0
  | l :: rest => if burden (l :: rest) ≤ capacity then 0 else excess capacity rest + 1

theorem excess_of_fits (h : burden xs ≤ capacity) : excess capacity xs = 0 := by
  cases xs with
  | nil => rfl
  | cons l rest => exact if_pos h

theorem excess_cons_of_lt {l : Linked} {rest : List Linked} (h : capacity < burden (l :: rest)) :
    excess capacity (l :: rest) = excess capacity rest + 1 :=
  if_neg (Nat.not_le.mpr h)

theorem excess_le_length (capacity : Nat) (xs : List Linked) :
    excess capacity xs ≤ xs.length := by
  induction xs with
  | nil => exact Nat.le_refl _
  | cons l rest ih =>
    unfold excess
    split
    · exact Nat.zero_le _
    · exact Nat.succ_le_succ ih

/-- No fewer nodes would do. -/
theorem isLeast_excess (capacity : Nat) (xs : List Linked) :
    IsLeast {k | burden (xs.drop k) ≤ capacity} (excess capacity xs) := by
  induction xs with
  | nil => exact ⟨Nat.zero_le _, fun k _ => Nat.zero_le k⟩
  | cons l rest ih =>
    rcases Nat.lt_or_ge capacity (burden (l :: rest)) with hover | hfits
    · rw [excess_cons_of_lt hover]
      refine ⟨ih.1, fun k hk => ?_⟩
      cases k with
      | zero => exact absurd hk (Nat.not_le.mpr hover)
      | succ k => exact Nat.succ_le_succ (ih.2 hk)
    · rw [excess_of_fits hfits]
      exact ⟨hfits, fun k _ => Nat.zero_le k⟩

/-- Retired nodes have no pair. -/
theorem Pool.filterMap_pair?_alive (p : Pool) (ids : List NodeId) :
    (ids.filter p.alive).filterMap p.pair? = ids.filterMap p.pair? := by
  rw [List.filterMap_filter]
  refine List.filterMap_congr fun id _ => ?_
  cases hh : p.held id <;> simp [Pool.alive, Pool.pair?, hh]

/-- Live nodes have one each. -/
theorem Pool.length_filterMap_pair? (p : Pool) (ids : List NodeId) :
    (ids.filterMap p.pair?).length = (ids.filter p.alive).length := by
  rw [List.length_filterMap_eq_countP, List.countP_eq_length_filter]
  simp only [Pool.pair?, Option.isSome_map]
  rfl

namespace Engine

variable {e e' e'' : Engine} {id : NodeId} {gone later : List NodeId} {last : Held}
  {p : Pool} {d : Deque} {n : Nat}

def sheds (e : Engine) (gone : List NodeId) (key : Key) : Bool :=
  (e.store.get? key).any fun id => id ∈ gone ∧ e.pool.key id = key

theorem sheds_iff {key : Key} :
    e.sheds gone key = true ↔ ∃ id, e.store.get? key = some id ∧ id ∈ gone ∧ e.pool.key id = key := by
  simp [sheds, Option.any_eq_true]

/-- `e'` is `e` with the listed nodes retired, each unmapped if its key was mapped to it. Their
links are gone or not: the deque plays no part. -/
structure Retires (gone : List NodeId) (e e' : Engine) : Prop where
  nodes : ∀ id, e'.pool.node? id =
    if id ∈ gone then (e.pool.node? id).map (·.write none) else e.pool.node? id
  entries : e'.store.entries = e.store.entries.filter fun m => !e.sheds gone m.1
  size : e'.store.size = e.store.size - gone.countP fun id => e.store.get? (e.pool.key id) = some id
  buffers : e'.buffers = e.buffers
  touch : e'.touchOnUpdate = e.touchOnUpdate

theorem lookup_filter_key {α β : Type} [DecidableEq α] (keep : α → Bool) (pairs : List (α × β))
    (key : α) :
    (pairs.filter fun m => keep m.1).lookup key = if keep key then pairs.lookup key else none := by
  induction pairs with
  | nil => simp
  | cons m rest ih =>
    by_cases hk : key = m.1
    · subst hk
      by_cases hkeep : keep m.1
      · simp [hkeep, Assoc.lookup_cons]
      · simp [hkeep, ih]
    · by_cases hkeep : keep m.1
      · simp [hkeep, Assoc.lookup_cons, hk, ih]
      · simp [hkeep, Assoc.lookup_cons, hk, ih]

namespace Retires

theorem of_eq (hp : e'.pool = e.pool) (hs : e'.store = e.store) (hb : e'.buffers = e.buffers)
    (ht : e'.touchOnUpdate = e.touchOnUpdate) : Retires [] e e' where
  nodes id := by simp [hp]
  entries := by simp [hs, sheds]
  size := by simp [hs]
  buffers := hb
  touch := ht

theorem get? (h : Retires gone e e') (key : Key) :
    e'.store.get? key = if e.sheds gone key then none else e.store.get? key := by
  rw [Store.get?, h.entries, lookup_filter_key fun key => !e.sheds gone key]
  cases e.sheds gone key <;> rfl

/-- The mappings to retired nodes are gone, every other one is there. -/
theorem get?_eq_filter (h : Retires gone e e') (key : Key) :
    e'.store.get? key =
      (e.store.get? key).filter fun id => ¬ (id ∈ gone ∧ e.pool.key id = key) := by
  rw [h.get?, sheds]
  cases e.store.get? key with
  | none => rfl
  | some id =>
    by_cases hid : id ∈ gone ∧ e.pool.key id = key <;> simp [hid, Option.filter]

theorem key (h : Retires gone e e') (id : NodeId) : e'.pool.key id = e.pool.key id := by
  rw [Pool.key, Pool.key, h.nodes]
  split
  · cases e.pool.node? id <;> rfl
  · rfl

theorem held (h : Retires gone e e') (id : NodeId) :
    e'.pool.held id = if id ∈ gone then none else e.pool.held id := by
  rw [Pool.held, Pool.held, h.nodes]
  split
  · cases e.pool.node? id <;> rfl
  · rfl

/-- The deque plays no part. -/
theorem of_relinked (h : Retires gone { e with deque := d } e') : Retires gone e e' :=
  ⟨h.nodes, h.entries, h.size, h.buffers, h.touch⟩

theorem pair? (h : Retires gone e e') (hid : id ∉ gone) : e'.pool.pair? id = e.pool.pair? id := by
  rw [Pool.pair?, Pool.pair?, h.held, if_neg hid, h.key]

theorem alive (h : Retires gone e e') (hid : id ∉ gone) : e'.pool.alive id = e.pool.alive id := by
  rw [Pool.alive, Pool.alive, h.held, if_neg hid]

/-- What later nodes shed is what they would have shed at first. -/
theorem sheds_append (h : Retires gone e e') (later : List NodeId) (key : Key) :
    e.sheds (gone ++ later) key = (e.sheds gone key || e'.sheds later key) := by
  rw [Bool.eq_iff_iff, Bool.or_eq_true, sheds_iff, sheds_iff, sheds_iff, h.get?]
  simp only [h.key, List.mem_append]
  cases hs : e.sheds gone key with
  | true =>
    obtain ⟨id, hk, hid, hkey⟩ := sheds_iff.mp hs
    exact iff_of_true ⟨id, hk, .inl hid, hkey⟩ (.inl ⟨id, hk, hid, hkey⟩)
  | false =>
    have hnone : ¬ ∃ id, e.store.get? key = some id ∧ id ∈ gone ∧ e.pool.key id = key := by
      rw [← sheds_iff, hs]
      exact Bool.false_ne_true
    constructor
    · rintro ⟨id, hk, hid | hid, hkey⟩
      · exact .inl ⟨id, hk, hid, hkey⟩
      · exact .inr ⟨id, hk, hid, hkey⟩
    · rintro (hshed | ⟨id, hk, hid, hkey⟩)
      · exact absurd hshed hnone
      · exact ⟨id, hk, .inr hid, hkey⟩

/-- A node outside of the list stays mapped. -/
theorem mapped_iff (h : Retires gone e e') (hid : id ∉ gone) :
    e'.store.get? (e'.pool.key id) = some id ↔ e.store.get? (e.pool.key id) = some id := by
  rw [h.key, h.get?]
  cases hs : e.sheds gone (e.pool.key id) with
  | false => rfl
  | true =>
    obtain ⟨other, hk, hother, _⟩ := sheds_iff.mp hs
    have hne : other ≠ id := fun he => hid (he ▸ hother)
    simp [hk, hne]

theorem trans (h : Retires gone e e') (h' : Retires later e' e'')
    (hdisjoint : ∀ id ∈ later, id ∉ gone) : Retires (gone ++ later) e e'' where
  nodes id := by
    rw [h'.nodes, h.nodes]
    by_cases hlater : id ∈ later
    · simp [hlater, hdisjoint id hlater]
    · simp [hlater]
  entries := by
    rw [h'.entries, h.entries, List.filter_filter]
    refine List.filter_congr fun m _ => ?_
    rw [h.sheds_append, Bool.not_or, Bool.and_comm]
  size := by
    have hmapped : later.countP (fun id => e'.store.get? (e'.pool.key id) = some id) =
        later.countP fun id => e.store.get? (e.pool.key id) = some id := by
      refine List.countP_congr fun id hid => ?_
      simpa using h.mapped_iff (hdisjoint id hid)
    rw [h'.size, h.size, hmapped, List.countP_append, Nat.sub_sub]
  buffers := h'.buffers.trans h.buffers
  touch := h'.touch.trans h.touch

end Retires

/-- Expelling a live node retires it, and nothing else. -/
theorem retires_expel (h : e.expel id = some (last, e')) : Retires [id] e e' := by
  obtain ⟨⟨held, p⟩, hr, he⟩ := Option.map_eq_some_iff.mp h
  simp only [Prod.mk.injEq] at he
  obtain ⟨rfl, rfl⟩ := he
  have hkey := (Pool.rewrites_of_retire hr).key id
  obtain ⟨n, hn, _, hnodes⟩ := Pool.node?_of_retire hr
  have hpool (other : NodeId) : p.node? other =
      if other ∈ [id] then (e.pool.node? other).map (·.write none) else e.pool.node? other := by
    rw [hnodes]
    by_cases ho : other = id
    · simp [ho, hn]
    · simp [ho]
  unfold unmap Store.removeIfMatch
  simp only [hkey]
  by_cases hk : e.store.get? (e.pool.key id) = some id
  · have hsheds (m : Key × NodeId) : (!e.sheds [id] m.1) = decide (m.1 ≠ e.pool.key id) := by
      rw [Bool.eq_iff_iff, Bool.not_eq_true', ← Bool.not_eq_true, sheds_iff, decide_eq_true_eq]
      refine not_congr ⟨fun ⟨other, _, ho, hm⟩ => ?_, fun hm => ⟨id, hm ▸ hk, by simp, hm.symm⟩⟩
      rw [← hm, List.mem_singleton.mp ho]
    rw [if_pos hk]
    have hone : [id].countP (fun id => e.store.get? (e.pool.key id) = some id) = 1 := by simp [hk]
    exact ⟨hpool, List.filter_congr fun m _ => (hsheds m).symm, by rw [hone]; rfl, rfl, rfl⟩
  · have hsheds (key : Key) : e.sheds [id] key = false := by
      rw [← Bool.not_eq_true, sheds_iff]
      rintro ⟨other, ho, hid, rfl⟩
      rw [List.mem_singleton.mp hid] at ho
      exact hk ho
    rw [if_neg hk]
    exact ⟨hpool, by simp [hsheds], by simp [hk], rfl, rfl⟩

/-- A deque that fits is left alone. -/
theorem evictUpTo_of_fits (h : e.deque.weightedSize ≤ capacity) (n : Nat) :
    evictUpTo capacity n e = ([], e) := by
  cases n with
  | zero => rfl
  | succ n => exact if_pos h

theorem evict_of_fits (h : e.deque.weightedSize ≤ capacity) : e.evict capacity = ([], e) :=
  evictUpTo_of_fits h _

/-- A round that finds a retired node takes it out silently. -/
theorem evictUpTo_succ_of_retired (h : capacity < e.deque.weightedSize)
    (hp : e.deque.popFront? = some (id, d))
    (hx : ({ e with deque := d } : Engine).expel id = none) :
    evictUpTo capacity (n + 1) e = evictUpTo capacity n { e with deque := d } := by
  rw [evictUpTo, if_neg (Nat.not_le.mpr h), hp]
  simp only [hx]

/-- A round that finds a live node retires it and gives its pair. -/
theorem evictUpTo_succ_of_alive (h : capacity < e.deque.weightedSize)
    (hp : e.deque.popFront? = some (id, d))
    (hx : ({ e with deque := d } : Engine).expel id = some (last, e')) :
    evictUpTo capacity (n + 1) e =
      (⟨(evictUpTo capacity n e').2.pool.key id, last.value⟩ :: (evictUpTo capacity n e').1,
        (evictUpTo capacity n e').2) := by
  rw [evictUpTo, if_neg (Nat.not_le.mpr h), hp]
  simp only [hx]

/-- What the next round of an eviction finds. -/
theorem evict_cases (h : e.deque.WellFormed) (capacity : Nat) :
    (e.deque.weightedSize ≤ capacity ∧ excess capacity e.deque.toList = 0) ∨
      ∃ l rest d, capacity < e.deque.weightedSize ∧ e.deque.toList = l :: rest ∧
        excess capacity e.deque.toList = excess capacity rest + 1 ∧
        e.deque.popFront? = some (l.node, d) ∧ d.WellFormed ∧ d.toList = rest ∧
        l.node ∉ rest.map (·.node) := by
  have hweight : e.deque.weightedSize = burden e.deque.toList := Deque.Ring.weightedSize h
  rcases Nat.lt_or_ge capacity e.deque.weightedSize with hover | hfits
  · rcases h.popFront? with ⟨_, _, hsize⟩ | ⟨l, rest, d, hx, hp, hd, hrest, _⟩
    · omega
    · have hnodup := Deque.Ring.nodup_nodes h
      rw [hx, List.map_cons] at hnodup
      rw [hweight, hx] at hover
      refine .inr ⟨l, rest, d, ?_, hx, ?_, hp, hd, hrest, (List.nodup_cons.mp hnodup).1⟩
      · rw [hweight, hx]
        exact hover
      · rw [hx, excess_cons_of_lt hover]
  · exact .inl ⟨hfits, excess_of_fits (hweight ▸ hfits)⟩

/-- With enough rounds an eviction ends by itself, so that more rounds change nothing. -/
theorem evictUpTo_of_le (h : e.deque.WellFormed) (hn : excess capacity e.deque.toList ≤ n) :
    evictUpTo capacity n e = evictUpTo capacity (excess capacity e.deque.toList) e := by
  induction n generalizing e with
  | zero => rw [Nat.le_zero.mp hn]
  | succ n ih =>
    rcases evict_cases h capacity with ⟨hfits, _⟩ | ⟨l, rest, d, hover, _, hk, hp, hd, hrest, _⟩
    · rw [evictUpTo_of_fits hfits, evictUpTo_of_fits hfits]
    · rw [hk] at hn ⊢
      have hn' : excess capacity d.toList ≤ n := hrest ▸ Nat.le_of_succ_le_succ hn
      cases hx : ({ e with deque := d } : Engine).expel l.node with
      | none =>
        rw [evictUpTo_succ_of_retired hover hp hx, evictUpTo_succ_of_retired hover hp hx, ← hrest]
        exact ih hd hn'
      | some result =>
        obtain ⟨last, e1⟩ := result
        have hdeque := deque_expel hx
        have hlater := ih (e := e1) (hdeque ▸ hd) (hdeque ▸ hn')
        rw [hdeque, hrest] at hlater
        rw [evictUpTo_succ_of_alive hover hp hx, evictUpTo_succ_of_alive hover hp hx, hlater]

/-- An eviction takes out the shortest sufficient front, and retires what is alive of it. -/
theorem evictUpTo_spec (h : e.deque.WellFormed) (hn : excess capacity e.deque.toList ≤ n) :
    (evictUpTo capacity n e).1 =
        (e.deque.order.take (excess capacity e.deque.toList)).filterMap e.pool.pair? ∧
      (evictUpTo capacity n e).2.deque.WellFormed ∧
      (evictUpTo capacity n e).2.deque.toList =
        e.deque.toList.drop (excess capacity e.deque.toList) ∧
      Retires ((e.deque.order.take (excess capacity e.deque.toList)).filter e.pool.alive) e
        (evictUpTo capacity n e).2 := by
  induction n generalizing e with
  | zero =>
    rw [Nat.le_zero.mp hn]
    exact ⟨rfl, h, rfl, .of_eq rfl rfl rfl rfl⟩
  | succ n ih =>
    rcases evict_cases h capacity with
      ⟨hfits, hk⟩ | ⟨l, rest, d, hover, hx, hk, hp, hd, hrest, hout⟩
    · rw [evictUpTo_of_fits hfits, hk]
      exact ⟨rfl, h, rfl, .of_eq rfl rfl rfl rfl⟩
    · have horder : e.deque.order = l.node :: d.order := by
        rw [Deque.order, Deque.order, hx, hrest, List.map_cons]
      rw [hk] at hn
      have hn' : excess capacity d.toList ≤ n := hrest ▸ Nat.le_of_succ_le_succ hn
      rw [hk, horder, hx, List.take_succ_cons, List.drop_succ_cons, ← hrest]
      cases hexpel : ({ e with deque := d } : Engine).expel l.node with
      | none =>
        have hdead : e.pool.held l.node = none :=
          expel_eq_none_iff (e := { e with deque := d }).mp hexpel
        obtain ⟨hvictims, hwf, hlist, hretires⟩ := ih (e := { e with deque := d }) hd hn'
        rw [evictUpTo_succ_of_retired hover hp hexpel]
        refine ⟨?_, hwf, hlist, ?_⟩
        · rw [hvictims, List.filterMap_cons_none (by simp [Pool.pair?, hdead])]
        · rw [List.filter_cons_of_neg (by simp [Pool.alive, hdead])]
          exact hretires.of_relinked
      | some result =>
        obtain ⟨last, e1⟩ := result
        have hone : Retires [l.node] e e1 := (retires_expel hexpel).of_relinked
        have hlive : e.pool.held l.node = some last :=
          held_of_expel_eq (e := { e with deque := d }) hexpel
        have hdeque : e1.deque = d := deque_expel hexpel
        obtain ⟨hvictims, hwf, hlist, hretires⟩ := ih (e := e1) (hdeque ▸ hd) (hdeque ▸ hn')
        rw [hdeque] at hvictims hlist hretires
        have hothers : ∀ id ∈ d.order.take (excess capacity d.toList), id ∉ [l.node] := by
          intro id hid he
          rw [List.mem_singleton.mp he] at hid
          refine hout ?_
          rw [← hrest]
          exact List.mem_of_mem_take hid
        have hgone : (d.order.take (excess capacity d.toList)).filter e1.pool.alive =
            (d.order.take (excess capacity d.toList)).filter e.pool.alive :=
          List.filter_congr fun id hid => hone.alive (hothers id hid)
        rw [evictUpTo_succ_of_alive hover hp hexpel]
        refine ⟨?_, hwf, hlist, ?_⟩
        · rw [hretires.key, hone.key, hvictims,
            List.filterMap_cons_some (Pool.pair?_of_held hlive),
            List.filterMap_congr fun id hid => hone.pair? (hothers id hid)]
        · rw [hgone] at hretires
          rw [List.filter_cons_of_pos (by simp [Pool.alive, hlive])]
          exact hone.trans hretires fun id hid => hothers id (List.mem_of_mem_filter hid)

/-- There are enough rounds for an eviction to end with a deque that fits. -/
theorem evict_fits (h : e.deque.WellFormed) (capacity : Nat) :
    (e.evict capacity).2.deque.weightedSize ≤ capacity := by
  have hrounds : excess capacity e.deque.toList ≤ e.deque.links.size :=
    Nat.le_trans (excess_le_length ..) (Nat.le_of_lt h.length_lt_size)
  obtain ⟨_, hwf, hlist, _⟩ := evictUpTo_spec h hrounds
  have hsize : (e.evict capacity).2.deque.weightedSize =
      burden (e.deque.toList.drop (excess capacity e.deque.toList)) :=
    hlist ▸ Deque.Ring.weightedSize hwf
  exact hsize ▸ (isLeast_excess capacity e.deque.toList).1

end Engine

namespace Workbench

/-- An eviction takes the shortest sufficient front out of the recency order, by itself. What is
alive of it is counted, retired, unmapped where its key is mapped to this very node, and queued. -/
theorem evict_shortest_front (w : Workbench) (h : w.engine.deque.WellFormed) (capacity : Nat) :
    ∃ k, IsLeast {k | burden (w.engine.deque.toList.drop k) ≤ capacity} k ∧
      (∀ n, k ≤ n → Engine.evictUpTo capacity n w.engine = w.engine.evict capacity) ∧
      let gone := (w.engine.deque.order.take k).filter w.engine.pool.alive
      let next := (w.run (.evict capacity)).2
      (w.run (.evict capacity)).1 = .count gone.length ∧
        next.engine.deque.WellFormed ∧
        next.engine.deque.toList = w.engine.deque.toList.drop k ∧
        w.engine.Retires gone next.engine ∧
        (∀ key, next.engine.store.get? key = (w.engine.store.get? key).filter fun id =>
          ¬ (id ∈ gone ∧ w.engine.pool.key id = key)) ∧
        next.relay = if w.relay.enabled then
            { w.relay with queue := w.relay.queue ++ gone.filterMap w.engine.pool.pair? }
          else w.relay := by
  have hrounds : excess capacity w.engine.deque.toList ≤ w.engine.deque.links.size :=
    Nat.le_trans (excess_le_length ..) (Nat.le_of_lt h.length_lt_size)
  obtain ⟨hvictims, hwf, hlist, hretires⟩ := Engine.evictUpTo_spec h hrounds
  refine ⟨_, isLeast_excess .., fun n hn => ?_, ?_, hwf, hlist, hretires, fun key => ?_, ?_⟩
  · exact (Engine.evictUpTo_of_le h hn).trans (Engine.evictUpTo_of_le h hrounds).symm
  · show Answer.count (Engine.evictUpTo ..).1.length = _
    rw [hvictims, Pool.length_filterMap_pair?]
  · exact hretires.get?_eq_filter key
  · show w.relay.enqueueAll (Engine.evictUpTo ..).1 = _
    rw [hvictims, Relay.enqueueAll_eq, Pool.filterMap_pair?_alive]

/-- A workbench whose recency order starts with a weightless node whose key is mapped to another
one, a node that was retired before, and a mapped one. -/
def cluttered : Workbench where
  engine :=
    { pool :=
        { nodes := #[⟨"a", some ⟨"1", 2⟩, 0⟩, ⟨"b", none, 1⟩, ⟨"c", some ⟨"3", 0⟩, 0⟩,
            ⟨"d", some ⟨"4", 0⟩, 0⟩, ⟨"e", some ⟨"5", 4⟩, 0⟩, ⟨"c", some ⟨"6", 1⟩, 0⟩] }
      store := { entries := [("a", 0), ("c", 5), ("e", 4)], mapped := { value := 3 } }
      buffers := Buffers.ofLevel 1 1
      deque := (((((Deque.pushBack {} 2 0).2.pushBack 1 3).2.pushBack 0 2).2.pushBack 3 0).2.pushBack
        4 4).2 }
  relay := Relay.ofListener (some {})

theorem evict_shortest_front_cluttered :
    let next := (cluttered.run (.evict 4)).2
    (cluttered.run (.evict 4)).1 = .count 2 ∧ next.engine.deque.order = [3, 4] ∧
      cluttered.engine.Retires [2, 0] next.engine ∧ next.engine.store.get? "c" = some 5 ∧
      next.engine.store.get? "a" = none ∧ next.relay.queue = [⟨"c", "3"⟩, ⟨"a", "1"⟩] := by
  have hwf : cluttered.engine.deque.WellFormed :=
    (((((Deque.wellFormed_empty.pushBack rfl 0).1.pushBack rfl 3).1.pushBack rfl 2).1.pushBack
      rfl 0).1.pushBack rfl 4).1
  obtain ⟨k, hk, -, hanswer, -, hlist, hretires, hget, hrelay⟩ :=
    evict_shortest_front cluttered hwf 4
  have hthree : k = 3 := hk.unique (isLeast_excess 4 _)
  subst hthree
  refine ⟨hanswer, ?_, hretires, ?_, ?_, ?_⟩
  · rw [Deque.order, hlist]
    rfl
  · rw [hget]
    rfl
  · rw [hget]
    rfl
  · rw [hrelay]
    rfl

end Workbench

end BoundedCache
