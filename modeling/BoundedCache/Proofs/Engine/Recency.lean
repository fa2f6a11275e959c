import BoundedCache.Proofs.Engine.Live

namespace BoundedCache

def toBack (id : NodeId) (order : List NodeId) : List NodeId := order.filter (· ≠ id) ++ [id]

theorem filter_toBack_of_keep {keep : NodeId → Bool} {id : NodeId} (h : keep id = true)
    (order : List NodeId) : (toBack id order).filter keep = toBack id (order.filter keep) := by
  rw [toBack, toBack, List.filter_append, List.filter_filter, List.filter_filter,
    List.filter_cons_of_pos h, List.filter_nil]
  simp only [Bool.and_comm]

theorem filter_toBack_of_drop {keep : NodeId → Bool} {id : NodeId} (h : keep id = false)
    (order : List NodeId) : (toBack id order).filter keep = order.filter keep := by
  rw [toBack, List.filter_append, List.filter_filter, List.filter_cons_of_neg (by simp [h]),
    List.filter_nil, List.append_nil]
  refine List.filter_congr fun other _ => ?_
  by_cases ho : other = id
  · simp [ho, h]
  · simp [ho]

theorem filter_ne_of_not_mem {id : NodeId} {order : List NodeId} (h : id ∉ order) :
    order.filter (· ≠ id) = order :=
  List.filter_eq_self.mpr fun _ hm => decide_eq_true fun he => h (he ▸ hm)

theorem filter_ne_middle {id : NodeId} {front back : List NodeId}
    (h : (front ++ id :: back).Nodup) : (front ++ id :: back).filter (· ≠ id) = front ++ back := by
  have hfront : id ∉ front := fun hm => (List.nodup_append.mp h).2.2 id hm id (by simp) rfl
  have hback : id ∉ back := (List.nodup_cons.mp (List.nodup_append.mp h).2.1).1
  rw [List.filter_append, List.filter_cons_of_neg (by simp), filter_ne_of_not_mem hfront,
    filter_ne_of_not_mem hback]

def Pool.alive (p : Pool) (id : NodeId) : Bool := (p.held id).isSome

/-- What the replay of an event makes of the order of the linked nodes, given which nodes are
alive. -/
def Event.reorder (touch : Bool) (alive : NodeId → Bool) (order : List NodeId) (ev : Event) :
    List NodeId :=
  match ev.kind with
  | .read => if alive ev.node ∧ ev.node ∈ order then toBack ev.node order else order
  | .add => if alive ev.node ∧ ev.node ∉ order then order ++ [ev.node] else order
  | .update =>
    if touch ∧ alive ev.node ∧ ev.node ∈ order then toBack ev.node order else order
  | .remove => order.filter (· ≠ ev.node)

section

variable {keep alive alive' : NodeId → Bool} {touch : Bool} {order order' : List NodeId}
  {events : List Event} {ev : Event}

/-- An event about a node outside of `keep` does not move the nodes in it. -/
theorem filter_reorder_of_drop (h : keep ev.node = false) :
    (ev.reorder touch alive order).filter keep = order.filter keep := by
  unfold Event.reorder
  split
  · split
    · exact filter_toBack_of_drop h order
    · rfl
  · split
    · simp [h]
    · rfl
  · split
    · exact filter_toBack_of_drop h order
    · rfl
  · rw [List.filter_filter]
    refine List.filter_congr fun other _ => ?_
    by_cases ho : other = ev.node
    · simp [ho, h]
    · simp [ho]

/-- Two orders that agree on the nodes in `keep` still do so after an event. -/
theorem filter_reorder (hlive : keep ev.node = true → alive' ev.node = alive ev.node)
    (ho : order'.filter keep = order.filter keep) :
    (ev.reorder touch alive' order').filter keep = (ev.reorder touch alive order).filter keep := by
  cases hk : keep ev.node with
  | false => rw [filter_reorder_of_drop hk, filter_reorder_of_drop hk, ho]
  | true =>
    have hmem : ev.node ∈ order' ↔ ev.node ∈ order := by
      have := congrArg (ev.node ∈ ·) ho
      simpa [hk] using this
    have hback : (toBack ev.node order').filter keep = (toBack ev.node order).filter keep := by
      rw [filter_toBack_of_keep hk, filter_toBack_of_keep hk, ho]
    unfold Event.reorder
    rw [hlive hk]
    simp only [hmem]
    split
    · split
      · exact hback
      · exact ho
    · split
      · rw [List.filter_append, List.filter_append, ho]
      · exact ho
    · split
      · exact hback
      · exact ho
    · rw [List.filter_comm, ho, List.filter_comm]

theorem filter_foldl_reorder
    (hlive : ∀ ev ∈ events, keep ev.node = true → alive' ev.node = alive ev.node)
    (ho : order'.filter keep = order.filter keep) :
    (events.foldl (Event.reorder touch alive') order').filter keep =
      (events.foldl (Event.reorder touch alive) order).filter keep := by
  induction events generalizing order order' with
  | nil => exact ho
  | cons ev events ih =>
    obtain ⟨hev, hlater⟩ := List.forall_mem_cons.mp hlive
    exact ih hlater (filter_reorder hev ho)

end

namespace Deque

variable {d : Deque} {s : Slot} {xs : List Linked} {id : NodeId} {w : Weight}

def order (d : Deque) : List NodeId := d.toList.map (·.node)

theorem Ring.order_eq (h : Ring d xs) : d.order = xs.map (·.node) := by rw [order, h.toList_eq]

namespace WellFormed

theorem mem_order_iff (h : d.WellFormed) : id ∈ d.order ↔ d.slotOf id ≠ none := by
  rw [Ne, Ring.slotOf_eq_none_iff h, Deque.order, not_not]

theorem order_moveToBack (h : d.WellFormed) (hs : d.slotOf id = some s) :
    (d.moveToBack s).order = toBack id d.order := by
  obtain ⟨front, l, back, hr, rfl, rfl⟩ := h.exists_ring hs
  have hnodup := hr.nodup_nodes
  rw [List.map_append, List.map_cons] at hnodup
  rw [hr.moveToBack.order_eq, hr.order_eq, toBack, List.map_append, List.map_append,
    List.map_append, List.map_cons, List.map_cons, filter_ne_middle hnodup]
  rfl

theorem order_setWeight (h : d.WellFormed) (hs : d.slotOf id = some s) (w : Weight) :
    (d.setWeight s w).order = d.order := by
  obtain ⟨front, l, back, hr, rfl, rfl⟩ := h.exists_ring hs
  rw [hr.setWeight.order_eq, hr.order_eq, List.map_append, List.map_append]
  rfl

theorem order_pushBack (h : d.WellFormed) (hs : d.slotOf id = none) (w : Weight) :
    (d.pushBack id w).2.order = d.order ++ [id] := by
  rw [(Ring.pushBack h hs).order_eq, List.map_append]
  rfl

theorem order_unlink (h : d.WellFormed) (hs : d.slotOf id = some s) {result : NodeId × Weight}
    {d' : Deque} (hu : d.unlink s = some (result, d')) : d'.order = d.order.filter (· ≠ id) := by
  obtain ⟨front, l, back, hr, rfl, rfl⟩ := h.exists_ring hs
  obtain ⟨d1, hd, hr'⟩ := hr.unlink
  cases hu.symm.trans hd
  have hnodup := hr.nodup_nodes
  rw [List.map_append, List.map_cons] at hnodup
  rw [hr'.order_eq, hr.order_eq, List.map_append, List.map_append, List.map_cons,
    filter_ne_middle hnodup]

end WellFormed

theorem weightedSize_moveToBack (d : Deque) (s : Slot) :
    (d.moveToBack s).weightedSize = d.weightedSize :=
  congrArg Gauge.value (d.gauges_moveToBack s).2

end Deque

def Pool.pair? (p : Pool) (id : NodeId) : Option Entry :=
  (p.held id).map fun held => ⟨p.key id, held.value⟩

theorem Pool.pair?_of_held {p : Pool} {id : NodeId} {last : Held} (hl : p.held id = some last) :
    p.pair? id = some ⟨p.key id, last.value⟩ := by
  simp [Pool.pair?, hl]

namespace Engine

variable {e e' : Engine} {id : NodeId} {last fresh : Held} {p : Pool} {s : Store} {key : Key}
  {reads pending : List Event}

/-- Events change the deque and nothing else. -/
theorem exists_applyAll_eq (e : Engine) (events : List Event) :
    ∃ d, e.applyAll events = { e with deque := d } := by
  induction events generalizing e with
  | nil => exact ⟨e.deque, rfl⟩
  | cons ev events ih =>
    obtain ⟨d, hd⟩ := exists_apply_eq e ev
    obtain ⟨d', hd'⟩ := ih (e.apply ev)
    exact ⟨d', hd'.trans (by rw [hd])⟩

theorem store_applyAll (e : Engine) (events : List Event) :
    (e.applyAll events).store = e.store := by
  obtain ⟨d, hd⟩ := exists_applyAll_eq e events
  rw [hd]

theorem touchOnUpdate_applyAll (e : Engine) (events : List Event) :
    (e.applyAll events).touchOnUpdate = e.touchOnUpdate := by
  obtain ⟨d, hd⟩ := exists_applyAll_eq e events
  rw [hd]

/-- The live pairs, least recently used first. -/
def recency (e : Engine) : List Entry := e.deque.order.filterMap e.pool.pair?

theorem touchOnUpdate_apply (e : Engine) (ev : Event) :
    (e.apply ev).touchOnUpdate = e.touchOnUpdate := by
  obtain ⟨d, hd⟩ := exists_apply_eq e ev
  rw [hd]

theorem weightedSize_apply_read (e : Engine) (id : NodeId) :
    (e.apply ⟨.read, id⟩).deque.weightedSize = e.deque.weightedSize := by
  unfold apply
  cases e.deque.slotOf id with
  | none => rfl
  | some slot =>
    cases e.pool.held id with
    | none => rfl
    | some held => exact Deque.weightedSize_moveToBack _ _

/-- What the replay of an event makes of the recency order. -/
theorem order_apply (h : e.deque.WellFormed) (ev : Event) :
    (e.apply ev).deque.WellFormed ∧
      (e.apply ev).deque.order = ev.reorder e.touchOnUpdate e.pool.alive e.deque.order := by
  obtain ⟨kind, id⟩ := ev
  unfold apply Event.reorder Pool.alive
  cases hs : e.deque.slotOf id with
  | none =>
    have hm : id ∉ e.deque.order := by simp [h.mem_order_iff, hs]
    cases kind with
    | remove => exact ⟨h, (filter_ne_of_not_mem hm).symm⟩
    | read | update => simp [h, hm]
    | add =>
      cases hh : e.pool.held id with
      | none => simp [h]
      | some held => simpa [hm] using ⟨(h.pushBack hs held.weight).1, h.order_pushBack hs held.weight⟩
  | some slot =>
    have hm : id ∈ e.deque.order := h.mem_order_iff.mpr (by simp [hs])
    cases kind with
    | remove =>
      obtain ⟨w, d, _, hu, hd, _⟩ := h.unlink hs
      simp only [hu]
      exact ⟨hd, h.order_unlink hs hu⟩
    | add => simp [h, hm]
    | read =>
      cases hh : e.pool.held id with
      | none => simp [h]
      | some held => simpa [hm] using ⟨(h.moveToBack hs).1, h.order_moveToBack hs⟩
    | update =>
      cases hh : e.pool.held id with
      | none => simp [h]
      | some held =>
        obtain ⟨hd, _, hslot⟩ := h.setWeight hs held.weight
        have ho := h.order_setWeight hs held.weight
        have hs' := (hslot id).trans hs
        cases e.touchOnUpdate with
        | false => simpa using ⟨hd, ho⟩
        | true =>
          have hmoved := hd.order_moveToBack hs'
          rw [ho] at hmoved
          simpa [hm] using ⟨(hd.moveToBack hs').1, hmoved⟩

theorem order_applyAll (h : e.deque.WellFormed) (events : List Event) :
    (e.applyAll events).deque.WellFormed ∧
      (e.applyAll events).deque.order =
        events.foldl (Event.reorder e.touchOnUpdate e.pool.alive) e.deque.order := by
  induction events generalizing e with
  | nil => exact ⟨h, rfl⟩
  | cons ev events ih =>
    obtain ⟨hd, ho⟩ := order_apply h ev
    obtain ⟨hall, horder⟩ := ih hd
    rw [touchOnUpdate_apply, pool_apply, ho] at horder
    exact ⟨hall, horder⟩

/-- A replay treats two engines alike, as far as the same nodes are alive in both. -/
theorem filter_order_applyAll {events : List Event} (keep : NodeId → Bool)
    (h : e.deque.WellFormed) (h' : e'.deque.WellFormed)
    (htouch : e'.touchOnUpdate = e.touchOnUpdate)
    (hlive : ∀ ev ∈ events, keep ev.node = true →
      e'.pool.alive ev.node = e.pool.alive ev.node)
    (ho : e'.deque.order.filter keep = e.deque.order.filter keep) :
    (e'.applyAll events).deque.order.filter keep = (e.applyAll events).deque.order.filter keep := by
  rw [(order_applyAll h events).2, (order_applyAll h' events).2, htouch]
  exact filter_foldl_reorder hlive ho

/-- A replay of reads weighs nothing anew. -/
theorem applyAll_reads (h : e.deque.WellFormed) (hr : ∀ ev ∈ reads, ev.kind = .read) :
    (e.applyAll reads).deque.WellFormed ∧
      (e.applyAll reads).deque.weightedSize = e.deque.weightedSize := by
  induction reads generalizing e with
  | nil => exact ⟨h, rfl⟩
  | cons ev reads ih =>
    obtain ⟨kind, id⟩ := ev
    obtain ⟨hkind, hrest⟩ := List.forall_mem_cons.mp hr
    cases hkind
    obtain ⟨hd, hw⟩ := ih (order_apply h ⟨.read, id⟩).1 hrest
    exact ⟨hd, hw.trans (weightedSize_apply_read e id)⟩

namespace Accounted

/-- With nothing pending, exactly the live nodes are linked. -/
theorem mem_order_iff (h : Accounted [] e) : id ∈ e.deque.order ↔ (e.pool.held id).isSome := by
  rw [← h.linked_iff (by simp), Deque.order, List.mem_map]

theorem filter_order (h : Accounted [] e) :
    e.deque.order.filter e.pool.alive = e.deque.order :=
  List.filter_eq_self.mpr fun _ hm => h.mem_order_iff.mp hm

/-- The pairs in the recency order are the live ones. -/
theorem perm_recency (h : Accounted [] e) : e.live.Perm e.recency := by
  have hlive : e.live = e.store.nodes.filterMap e.pool.pair? := by
    rw [live, Pool.liveOf, Store.nodes, List.filterMap_map]
    refine List.filterMap_congr fun m hm => ?_
    rw [← h.store.keyed m.1 m.2 (h.store.mem_iff.mp hm)]
    rfl
  rw [hlive]
  exact (h.perm_nodes (by simp)).filterMap _

/-- Whatever is pending, a new value leaves its node where it is, or makes it the most recently used
one. -/
theorem order_update (h : Accounted pending e) (hq : e.pool.Rewrites p id last (some fresh)) :
    (Engine.applyAll (pending ++ [⟨.update, id⟩]) { e with pool := p }).deque.order =
      if e.touchOnUpdate then toBack id (e.applyAll pending).deque.order
      else (e.applyAll pending).deque.order := by
  have hlive : p.alive = e.pool.alive := by
    funext other
    rw [Pool.alive, Pool.alive, hq.held]
    split
    · rename_i he
      simp [he, hq.was]
    · rfl
  have hm : id ∈ (e.applyAll pending).deque.order := by
    rw [h.settle.mem_order_iff, pool_applyAll]
    simp [hq.was]
  have halive : e.pool.alive id = true := by simp [Pool.alive, hq.was]
  have horder := (order_applyAll (e := { e with pool := p }) h.deque pending).2
  rw [applyAll_append]
  refine (order_apply (order_applyAll (e := { e with pool := p }) h.deque pending).1 _).2.trans ?_
  rw [touchOnUpdate_applyAll, pool_applyAll, horder, hlive, ← (order_applyAll h.deque pending).2]
  simp [Event.reorder, halive, hm]

/-- Whatever is pending, a new node becomes the most recently used one. -/
theorem order_insert (h : Accounted pending e) (key : Key) (fresh : Held) (s : Store) :
    (Engine.applyAll (pending ++ [⟨.add, e.pool.next⟩])
      { e with pool := e.pool.add key fresh, store := s }).deque.order =
      (e.applyAll pending).deque.order ++ [e.pool.next] := by
  let inserted : Engine := { e with pool := e.pool.add key fresh, store := s }
  have hsame : ∀ ev ∈ pending, inserted.pool.alive ev.node = e.pool.alive ev.node := by
    intro ev hev
    rw [Pool.alive, Pool.alive, Pool.held_add, if_neg (Nat.ne_of_lt (h.named ev hev))]
  have horder : (inserted.applyAll pending).deque.order.filter (fun _ => true) =
      (e.applyAll pending).deque.order.filter fun _ => true :=
    filter_order_applyAll _ h.deque h.deque rfl (fun ev hev _ => hsame ev hev) rfl
  rw [List.filter_true, List.filter_true] at horder
  have hm : e.pool.next ∉ (e.applyAll pending).deque.order := by
    rw [h.settle.mem_order_iff, pool_applyAll,
      Pool.held_eq_none_of_next_le (Nat.le_refl e.pool.next)]
    simp
  have halive : inserted.pool.alive e.pool.next = true := by
    simp [inserted, Pool.alive, Pool.held_add]
  rw [applyAll_append]
  refine (order_apply (order_applyAll (e := inserted) h.deque pending).1 _).2.trans ?_
  rw [pool_applyAll, horder]
  simp [Event.reorder, halive, hm]

/-- A retired node leaves the order. What is pending about it counts for nothing. -/
theorem order_retire (h : Accounted pending e) (hq : e.pool.Rewrites p id last none) (s : Store) :
    (Engine.applyAll (pending ++ [⟨.remove, id⟩])
      { e with pool := p, store := s }).deque.order =
      (e.applyAll pending).deque.order.filter (· ≠ id) := by
  let retired : Engine := { e with pool := p, store := s }
  have hsame (other : NodeId) (hne : other ≠ id) : retired.pool.alive other = e.pool.alive other := by
    rw [Pool.alive, Pool.alive, hq.held, if_neg hne]
  have horder : (retired.applyAll pending).deque.order.filter (· ≠ id) =
      (e.applyAll pending).deque.order.filter (· ≠ id) :=
    filter_order_applyAll _ h.deque h.deque rfl
      (fun ev _ hne => hsame ev.node (of_decide_eq_true hne)) rfl
  rw [applyAll_append]
  exact (order_apply (order_applyAll (e := retired) h.deque pending).1 _).2.trans horder

end Accounted

/-- An eviction without victims takes retired nodes out of the deque and does no more. -/
theorem evictUpTo_of_no_victims (h : e.deque.WellFormed) {capacity n : Nat}
    (hnone : (evictUpTo capacity n e).1 = []) :
    ∃ d, (evictUpTo capacity n e).2 = { e with deque := d } ∧ d.WellFormed ∧
      d.order.filter e.pool.alive = e.deque.order.filter e.pool.alive := by
  induction n generalizing e with
  | zero => exact ⟨e.deque, rfl, h, rfl⟩
  | succ n ih =>
    unfold evictUpTo at hnone ⊢
    split at hnone
    · rename_i hfits
      rw [if_pos hfits]
      exact ⟨e.deque, rfl, h, rfl⟩
    · rename_i hover
      rw [if_neg hover]
      rcases h.popFront? with ⟨hp, _, _⟩ | ⟨l, rest, d, hx, hp, hd, hrest, _⟩
      · simp only [hp]
        exact ⟨e.deque, rfl, h, rfl⟩
      · simp only [hp] at hnone ⊢
        cases hexpel : ({ e with deque := d } : Engine).expel l.node with
        | some result => simp [hexpel] at hnone
        | none =>
          simp only [hexpel] at hnone ⊢
          have hdead : e.pool.alive l.node = false := by
            rw [Pool.alive, Pool.retire_eq_none_iff.mp (Option.map_eq_none_iff.mp hexpel)]
            rfl
          have hskip : e.deque.order.filter e.pool.alive = d.order.filter e.pool.alive := by
            rw [Deque.order, hx, Deque.order, hrest, List.map_cons,
              List.filter_cons_of_neg (by simp [hdead])]
          obtain ⟨d', hevict, hd', ho⟩ := ih (e := { e with deque := d }) hd hnone
          exact ⟨d', hevict, hd', ho.trans hskip.symm⟩

end Engine

end BoundedCache
