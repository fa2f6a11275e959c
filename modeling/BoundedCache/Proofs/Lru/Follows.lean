import BoundedCache.Proofs.Engine.Recency
import BoundedCache.Proofs.Lru.Reference

namespace BoundedCache.Engine

variable {e : Engine} {id other : NodeId} {last fresh held : Held} {p : Pool} {s : Store}
  {key : Key} {pending : List Event} {w : Weigher} {pair : Entry} {order : List NodeId}
  {capacity : Nat}

/-- Two live nodes have different keys. -/
theorem Paired.eq_of_key (h : e.Paired) (hl : e.pool.held id = some last)
    (ho : e.pool.held other = some held) (hk : e.pool.key other = e.pool.key id) : other = id := by
  have hid := (h.mapped id).mpr (by simp [hl])
  have hother := (h.mapped other).mpr (by simp [ho])
  rw [hk, hid] at hother
  exact (Option.some.inj hother).symm

/-- Without the key of a live node, the order is without that node. -/
theorem Paired.without_order (h : e.Paired) (hl : e.pool.held id = some last)
    (order : List NodeId) :
    Lru.without (e.pool.key id) (order.filterMap e.pool.pair?) =
      (order.filter (· ≠ id)).filterMap e.pool.pair? := by
  rw [Lru.without, List.filter_filterMap, List.filterMap_filter]
  refine List.filterMap_congr fun other _ => ?_
  cases ho : e.pool.held other with
  | none => simp [Pool.pair?, ho]
  | some held =>
    rw [Pool.pair?_of_held ho]
    by_cases he : other = id
    · simp [he]
    · have hkey : e.pool.key other ≠ e.pool.key id := fun hk => he (h.eq_of_key hl ho hk)
      simp [he, hkey]

/-- A write changes the pair of its node and no other. -/
theorem filterMap_rewrites {next : Option Held} (hq : e.pool.Rewrites p id last next)
    (ho : id ∉ order) : order.filterMap p.pair? = order.filterMap e.pool.pair? := by
  refine List.filterMap_congr fun other hm => ?_
  have hne : other ≠ id := fun he => ho (he ▸ hm)
  rw [Pool.pair?, Pool.pair?, hq.held, if_neg hne, hq.key]

namespace Accounted

theorem mem_recency_iff (h : Accounted [] e) :
    pair ∈ e.recency ↔
      ∃ id last, e.pool.held id = some last ∧ ⟨e.pool.key id, last.value⟩ = pair := by
  rw [recency, List.mem_filterMap]
  constructor
  · intro ⟨id, _, hp⟩
    obtain ⟨last, hl, he⟩ := Option.map_eq_some_iff.mp hp
    exact ⟨id, last, hl, he⟩
  · intro ⟨id, last, hl, he⟩
    exact ⟨id, h.mem_order_iff.mpr (by simp [hl]), he ▸ Pool.pair?_of_held hl⟩

theorem find?_recency_eq_none (h : Accounted [] e) (hk : e.store.get? key = none) :
    e.recency.find? (·.key = key) = none := by
  rw [List.find?_eq_none]
  intro pair hm he
  obtain ⟨id, last, hl, rfl⟩ := h.mem_recency_iff.mp hm
  have hkey : e.pool.key id = key := of_decide_eq_true he
  have hmapped := (h.mapped id).mpr (by simp [hl])
  rw [hkey, hk] at hmapped
  cases hmapped

theorem find?_recency (h : Accounted [] e) (hl : e.pool.held id = some last) :
    e.recency.find? (·.key = e.pool.key id) = some ⟨e.pool.key id, last.value⟩ := by
  cases hf : e.recency.find? (·.key = e.pool.key id) with
  | none =>
    have hm := h.mem_recency_iff.mpr ⟨id, last, hl, rfl⟩
    exact absurd (List.find?_eq_none.mp hf _ hm) (by simp)
  | some pair =>
    obtain ⟨other, held, ho, rfl⟩ := h.mem_recency_iff.mp (List.mem_of_find?_eq_some hf)
    have hkey := List.find?_some hf
    cases h.eq_of_key hl ho (of_decide_eq_true hkey)
    cases hl.symm.trans ho
    rfl

theorem recency_read (h : Accounted [] e) (hl : e.pool.held id = some last) :
    (e.apply ⟨.read, id⟩).recency =
      Lru.without (e.pool.key id) e.recency ++ [⟨e.pool.key id, last.value⟩] := by
  have horder := (order_apply h.deque ⟨.read, id⟩).2
  have hm : id ∈ e.deque.order := h.mem_order_iff.mpr (by simp [hl])
  rw [Event.reorder, if_pos ⟨by simp [Pool.alive, hl], hm⟩] at horder
  rw [recency, recency, horder, pool_apply, h.without_order hl, toBack, List.filterMap_append,
    List.filterMap_cons_some (Pool.pair?_of_held hl), List.filterMap_nil]

/-- A new value shows where the reference has it. -/
theorem recency_update (h : Accounted pending e)
    (hq : e.pool.Rewrites p id last (some fresh)) {r : Lru}
    (hentries : r.entries = (e.applyAll pending).recency)
    (htouch : r.touchOnUpdate = e.touchOnUpdate) :
    (Engine.applyAll (pending ++ [⟨.update, id⟩]) { e with pool := p }).recency =
      r.overwritten (e.pool.key id) fresh.value := by
  have hfresh : p.held id = some fresh := by simp [hq.held]
  have hnew : p.pair? id = some ⟨e.pool.key id, fresh.value⟩ := by
    rw [Pool.pair?_of_held hfresh, hq.key]
  rw [recency, h.order_update hq, pool_applyAll, Lru.overwritten, hentries, htouch, recency,
    pool_applyAll]
  cases e.touchOnUpdate with
  | true =>
    have hid : id ∉ (e.applyAll pending).deque.order.filter (· ≠ id) := by simp
    simp only [if_true]
    rw [h.without_order hq.was, toBack, List.filterMap_append, filterMap_rewrites hq hid,
      List.filterMap_cons_some hnew, List.filterMap_nil]
  | false =>
    simp only [Bool.false_eq_true, if_false]
    rw [List.map_filterMap]
    refine List.filterMap_congr fun other _ => ?_
    by_cases he : other = id
    · rw [he, hnew, Pool.pair?_of_held hq.was]
      simp
    · rw [Pool.pair?, Pool.pair?, hq.held, if_neg he, hq.key, Option.map_map]
      refine Option.map_congr fun held hh => ?_
      have hkey : e.pool.key other ≠ e.pool.key id := fun hk => he (h.eq_of_key hq.was hh hk)
      simp [hkey]

theorem recency_insert (h : Accounted pending e) (key : Key) (fresh : Held) (s : Store) :
    (Engine.applyAll (pending ++ [⟨.add, e.pool.next⟩])
      { e with pool := e.pool.add key fresh, store := s }).recency =
      (e.applyAll pending).recency ++ [⟨key, fresh.value⟩] := by
  have hfresh : (e.pool.add key fresh).held e.pool.next = some fresh := by simp [Pool.held_add]
  have hnew : (e.pool.add key fresh).pair? e.pool.next = some ⟨key, fresh.value⟩ := by
    rw [Pool.pair?_of_held hfresh, Pool.key_add, if_pos rfl]
  rw [recency, h.order_insert, pool_applyAll, List.filterMap_append,
    List.filterMap_cons_some hnew, List.filterMap_nil, recency, pool_applyAll]
  refine congrArg (· ++ _) (List.filterMap_congr fun id hm => ?_)
  have hlive := h.settle.mem_order_iff.mp hm
  rw [pool_applyAll] at hlive
  obtain ⟨held, hh⟩ := Option.isSome_iff_exists.mp hlive
  have hne : id ≠ e.pool.next := Nat.ne_of_lt (Pool.lt_next_of_held hh)
  rw [Pool.pair?, Pool.pair?, Pool.held_add, Pool.key_add, if_neg hne, if_neg hne]

theorem recency_retire (h : Accounted pending e)
    (hq : e.pool.Rewrites p id last none) (s : Store) :
    (Engine.applyAll (pending ++ [⟨.remove, id⟩]) { e with pool := p, store := s }).recency =
      Lru.without (e.pool.key id) (e.applyAll pending).recency := by
  have hid : id ∉ (e.applyAll pending).deque.order.filter (· ≠ id) := by simp
  rw [recency, h.order_retire hq, pool_applyAll, filterMap_rewrites hq hid, recency,
    pool_applyAll, h.without_order hq.was]

theorem weight_recency (h : Accounted [] e)
    (hw : ∀ id held, e.pool.held id = some held → w held.value = .ok held.weight) :
    Lru.weight w e.recency = e.deque.weightedSize := by
  rw [← h.sum_live (by simp) hw]
  exact (h.perm_recency.symm.map _).sum_nat

/-- A node that is popped and expelled takes the first pair with it. -/
theorem recency_expel (h : Accounted [] e) {l : Linked} {rest : List Linked} {d : Deque}
    (hx : e.deque.toList = l :: rest) (hd : d.toList = rest)
    (hq : e.pool.Rewrites p l.node last none) (s : Store) :
    e.recency = ⟨e.pool.key l.node, last.value⟩ ::
      recency { e with deque := d, pool := p, store := s } := by
  have hnodup := Deque.Ring.nodup_nodes h.deque
  rw [hx, List.map_cons] at hnodup
  have hout : l.node ∉ d.order := by
    rw [Deque.order, hd]
    exact (List.nodup_cons.mp hnodup).1
  rw [recency, recency, filterMap_rewrites hq hout, Deque.order, Deque.order, hx, hd, List.map_cons,
    List.filterMap_cons_some (Pool.pair?_of_held hq.was)]

theorem recency_evictUpTo (h : Accounted [] e)
    (hw : ∀ id held, e.pool.held id = some held → w held.value = .ok held.weight) {n : Nat}
    (hn : e.deque.toList.length ≤ n) :
    ((Engine.evictUpTo capacity n e).1, (Engine.evictUpTo capacity n e).2.recency) =
      Lru.evict w capacity e.recency := by
  induction n generalizing e with
  | zero =>
    have hnil : e.recency = [] := by
      rw [recency, Deque.order, List.length_eq_zero_iff.mp (Nat.le_zero.mp hn)]
      rfl
    rw [hnil]
    exact congrArg (Prod.mk []) hnil
  | succ n ih =>
    have hweight := h.weight_recency hw
    unfold Engine.evictUpTo
    split
    · rename_i hfits
      rw [Lru.evict_of_fits (hweight ▸ hfits)]
    · rename_i hover
      rcases h.deque.popFront? with ⟨_, _, hsize⟩ | ⟨l, rest, d, hx, hp, hd, hrest, hlink⟩
      · omega
      · have hlive : (e.pool.held l.node).isSome := by
          rw [← h.mem_order_iff, Deque.order, hx]
          simp
        obtain ⟨last, hl⟩ := Option.isSome_iff_exists.mp hlive
        obtain ⟨p, hretire⟩ := Pool.exists_retire hl
        have hexpel : ({ e with deque := d } : Engine).expel l.node =
            some (last, ({ e with deque := d, pool := p } : Engine).unmap l.node) := by
          simp [Engine.expel, hretire]
        have hacc := h.expel hd hlink
        have hpop : Paired { e with deque := d } := h.toPaired.of_eq rfl rfl
        obtain ⟨q, s, hq, ht, he⟩ := hpop.expel_eq hexpel
        simp only [hp, hexpel] at hacc ⊢
        rw [he] at hacc ⊢
        have hfirst := h.recency_expel hx hrest hq s
        have hwq : ∀ id held, q.held id = some held → w held.value = .ok held.weight := by
          intro id held hh
          rw [hq.held] at hh
          split at hh
          · cases hh
          · exact hw id held hh
        have hlater := ih hacc hwq (by simpa [hrest, hx] using hn)
        have hover' : capacity < Lru.weight w e.recency := by omega
        rw [hfirst] at hover' ⊢
        rw [Lru.evict_cons_of_lt hover', ← hlater, key_evictUpTo hq]

/-- An engine evicts what the reference evicts. -/
theorem recency_evict (h : Accounted [] e)
    (hw : ∀ id held, e.pool.held id = some held → w held.value = .ok held.weight) (capacity : Nat) :
    ((e.evict capacity).1, (e.evict capacity).2.recency) = Lru.evict w capacity e.recency :=
  h.recency_evictUpTo hw (Nat.le_of_lt h.deque.length_lt_size)

end Accounted

end BoundedCache.Engine
