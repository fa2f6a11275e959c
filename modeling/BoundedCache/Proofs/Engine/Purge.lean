import Mathlib.Data.List.Nodup
import BoundedCache.Proofs.Engine.Clear
import BoundedCache.Proofs.Engine.Eviction

namespace BoundedCache

/-- No event but its removal takes a node out of the order. -/
theorem mem_reorder {touch : Bool} {alive : NodeId → Bool} {order : List NodeId} {id : NodeId}
    {ev : Event} (hm : id ∈ order) (hr : ev ≠ ⟨.remove, id⟩) :
    id ∈ ev.reorder touch alive order := by
  obtain ⟨kind, other⟩ := ev
  have hback : id ∈ toBack other order := by
    by_cases ho : id = other <;> simp [toBack, ho, hm]
  unfold Event.reorder
  cases kind with
  | read | update =>
    dsimp only
    split
    · exact hback
    · exact hm
  | add =>
    dsimp only
    split
    · exact List.mem_append_left _ hm
    · exact hm
  | remove =>
    have ho : id ≠ other := fun he => hr (he ▸ rfl)
    exact List.mem_filter.mpr ⟨hm, decide_eq_true ho⟩

theorem mem_foldl_reorder {touch : Bool} {alive : NodeId → Bool} {events : List Event}
    {order : List NodeId} {id : NodeId} (hm : id ∈ order) (hr : ⟨.remove, id⟩ ∉ events) :
    id ∈ events.foldl (Event.reorder touch alive) order := by
  induction events generalizing order with
  | nil => exact hm
  | cons ev events ih =>
    obtain ⟨hev, hrest⟩ := not_or.mp (List.mem_cons.not.mp hr)
    exact ih (mem_reorder hm (Ne.symm hev)) hrest

theorem Pool.alive_iff {p : Pool} {id : NodeId} :
    p.alive id = true ↔ ∃ last, p.held id = some last :=
  Option.isSome_iff_exists

namespace Engine

variable {e e' : Engine} {id : NodeId} {ids : List NodeId}

/-- Expelling distinct nodes retires those that are alive, and counts them. -/
theorem retires_expelAll (hnodup : ids.Nodup) (e : Engine) :
    Retires (ids.filter e.pool.alive) e (expelAll ids e).2 ∧
      (expelAll ids e).1 = (ids.filter e.pool.alive).length := by
  induction ids generalizing e with
  | nil => exact ⟨.of_eq rfl rfl rfl rfl, rfl⟩
  | cons id ids ih =>
    obtain ⟨hid, hids⟩ := List.nodup_cons.mp hnodup
    unfold expelAll
    cases hx : e.expel id with
    | none =>
      have hdead : ¬ e.pool.alive id = true := by
        simp [Pool.alive, expel_eq_none_iff.mp hx]
      rw [List.filter_cons_of_neg hdead]
      exact ih hids e
    | some result =>
      obtain ⟨last, e1⟩ := result
      have hone := retires_expel hx
      have hothers : ∀ other ∈ ids, other ∉ [id] := fun other ho he =>
        hid (List.mem_singleton.mp he ▸ ho)
      have hgone : ids.filter e1.pool.alive = ids.filter e.pool.alive :=
        List.filter_congr fun other ho => hone.alive (hothers other ho)
      obtain ⟨hretires, hcount⟩ := ih hids e1
      rw [hgone] at hretires hcount
      rw [List.filter_cons_of_pos (Pool.alive_iff.mpr ⟨last, held_of_expel_eq hx⟩)]
      exact ⟨hone.trans hretires fun other ho => hothers other (List.mem_of_mem_filter ho),
        congrArg (· + 1) hcount⟩

/-- The first pass. -/
theorem retires_clearLinked (h : e.deque.WellFormed) :
    Retires (e.deque.order.filter e.pool.alive) e e.clearLinked.2 ∧
      e.clearLinked.1 = (e.deque.order.filter e.pool.alive).length ∧
      e.clearLinked.2.deque.Ring [] := by
  obtain ⟨d, hd, hring⟩ := Deque.Ring.drain_eq h
  have hnodup : e.deque.order.Nodup := Deque.Ring.nodup_nodes h
  obtain ⟨hretires, hcount⟩ := retires_expelAll hnodup { e with deque := d }
  have hpass : e.clearLinked = expelAll e.deque.order { e with deque := d } := by
    rw [clearLinked, hd]
    rfl
  rw [hpass]
  refine ⟨hretires.of_relinked, hcount, ?_⟩
  rw [(unchanged_expelAll _ _).1]
  exact hring

/-- Unmapping a node takes away the one mapping that leads to it, if there is one. -/
theorem get?_unmap (h : e.store.Sound e.pool) (id : NodeId) (key : Key) :
    (e.unmap id).store.get? key = (e.store.get? key).filter (· ≠ id) := by
  have hown (hk : e.store.get? key = some id) : e.pool.key id = key := h.keyed key id hk
  unfold unmap
  cases hr : e.store.removeIfMatch (e.pool.key id) id with
  | none =>
    have hnot : e.store.get? (e.pool.key id) ≠ some id := by
      intro hk
      simp [Store.removeIfMatch, hk] at hr
    cases hk : e.store.get? key with
    | none => rfl
    | some other =>
      have hne : other ≠ id := by
        rintro rfl
        exact hnot (hown hk ▸ hk)
      simp [hne, Option.filter]
  | some s =>
    have hmapped := Store.get?_of_removeIfMatch hr
    rw [Store.get?_removeIfMatch hr]
    by_cases hkey : key = e.pool.key id
    · simp [hkey, hmapped, Option.filter]
    · cases hk : e.store.get? key with
      | none => simp
      | some other =>
        have hne : other ≠ id := by
          rintro rfl
          exact hkey (hown hk).symm
        simp [hne, hkey, Option.filter]

/-- Unmapping nodes takes away every mapping that leads to one of them. -/
theorem get?_foldl_unmap (h : e.store.Sound e.pool) (ids : List NodeId) (key : Key) :
    (ids.foldl unmap e).store.get? key = (e.store.get? key).filter (· ∉ ids) := by
  induction ids generalizing e with
  | nil => cases hk : e.store.get? key <;> simp [hk, Option.filter]
  | cons id ids ih =>
    have hsound : (e.unmap id).store.Sound (e.unmap id).pool :=
      (Evolves.of_changes (e.changes_unmap id)).store h
    rw [List.foldl_cons, ih hsound, get?_unmap h]
    cases e.store.get? key with
    | none => rfl
    | some other => by_cases ho : other = id <;> simp [ho, Option.filter]

/-- The second pass. -/
theorem retires_clearMapped (h : e.store.Sound e.pool) :
    (∀ id, e.clearMapped.2.pool.node? id =
        if id ∈ e.store.nodes.filter e.pool.alive then (e.pool.node? id).map (·.write none)
        else e.pool.node? id) ∧
      e.clearMapped.1 = (e.store.nodes.filter e.pool.alive).length ∧
      e.clearMapped.2.store.entries = [] ∧ e.clearMapped.2.deque = e.deque := by
  obtain ⟨hretires, hcount⟩ := retires_expelAll h.nodup_nodes e
  have hsound := (Evolves.of_changes (changes_expelAll e.store.nodes e)).store h
  obtain ⟨hpool, hdeque, _⟩ := unchanged_foldl_unmap e.store.nodes (expelAll e.store.nodes e).2
  have hfinal := (Evolves.of_changes (changes_foldl_unmap e.store.nodes _)).store hsound
  refine ⟨fun id => ?_, hcount, hfinal.entries_eq_nil fun key => ?_, ?_⟩
  · rw [← hretires.nodes, ← hpool]
    rfl
  · show ((e.store.nodes.foldl unmap (expelAll e.store.nodes e).2).store.get? key) = none
    rw [get?_foldl_unmap hsound, Option.filter_eq_none_iff]
    intro id hk
    rw [hretires.get?_eq_filter, Option.filter_eq_some_iff] at hk
    have hm : id ∈ e.store.nodes := h.mem_nodes_iff.mpr (h.eq_key hk.1)
    simp [hm]
  · exact hdeque.trans (unchanged_expelAll _ _).1

/-- Both passes together: the nodes that the second one counts are those that the first one did not
find. -/
theorem clear_passes (hd : e.deque.WellFormed) (hs : e.store.Sound e.pool) :
    ∃ gone : List NodeId, gone.Nodup ∧
      (∀ id, id ∈ gone ↔ e.pool.alive id ∧ (id ∈ e.deque.order ∨ id ∈ e.store.nodes)) ∧
      e.clearLinked.1 + e.clearLinked.2.clearMapped.1 = gone.length ∧
      (∀ id, e.clearLinked.2.clearMapped.2.pool.node? id =
        if id ∈ gone then (e.pool.node? id).map (·.write none) else e.pool.node? id) ∧
      e.clearLinked.2.clearMapped.2.deque.Ring [] ∧
      e.clearLinked.2.clearMapped.2.store.entries = [] := by
  obtain ⟨hlinked, hcount, hring⟩ := retires_clearLinked hd
  have hs' := (Evolves.of_changes e.changes_clearLinked).store hs
  obtain ⟨hmapped, hcount', hnil, hdeque⟩ := retires_clearMapped hs'
  have horder : e.deque.order.Nodup := Deque.Ring.nodup_nodes hd
  -- What the first pass has retired is not alive for the second one.
  have hfresh : ∀ id, id ∈ e.clearLinked.2.store.nodes.filter e.clearLinked.2.pool.alive ↔
      id ∉ e.deque.order.filter e.pool.alive ∧ e.pool.alive id ∧ id ∈ e.store.nodes := by
    intro id
    rw [List.mem_filter, hs'.mem_nodes_iff]
    by_cases hid : id ∈ e.deque.order.filter e.pool.alive
    · have hdead : e.clearLinked.2.pool.alive id = false := by
        rw [Pool.alive, hlinked.held, if_pos hid]
        rfl
      simp [hid, hdead]
    · rw [hlinked.mapped_iff hid, hlinked.alive hid, ← hs.mem_nodes_iff]
      tauto
  refine ⟨e.deque.order.filter e.pool.alive ++
      e.clearLinked.2.store.nodes.filter e.clearLinked.2.pool.alive, ?_, fun id => ?_, ?_,
    fun id => ?_, hdeque ▸ hring, hnil⟩
  · refine List.Nodup.append (horder.filter _) (hs'.nodup_nodes.filter _) fun id hid hid' => ?_
    exact ((hfresh id).mp hid').1 hid
  · rw [List.mem_append, hfresh, List.mem_filter]
    tauto
  · rw [List.length_append, hcount, hcount']
  · rw [hmapped, hlinked.nodes]
    by_cases hid : id ∈ e.deque.order.filter e.pool.alive
    · have hnot : id ∉ e.clearLinked.2.store.nodes.filter e.clearLinked.2.pool.alive :=
        fun hid' => ((hfresh id).mp hid').1 hid
      rw [if_neg hnot, if_pos hid, if_pos (List.mem_append_left _ hid)]
    · simp only [List.mem_append, hid, if_false, false_or]

/-- The nodes that a clearing finds alive: what the replay of all events leaves linked, and what is
mapped. -/
def found (e : Engine) : List NodeId :=
  (List.range e.pool.next).filter fun id =>
    e.pool.alive id && (decide (id ∈ e.replay.2.deque.order) || decide (id ∈ e.store.nodes))

theorem mem_found_iff :
    id ∈ e.found ↔ e.pool.alive id ∧ (id ∈ e.replay.2.deque.order ∨ id ∈ e.store.nodes) := by
  rw [found, List.mem_filter, List.mem_range, Bool.and_eq_true, Bool.or_eq_true, decide_eq_true_eq,
    decide_eq_true_eq]
  refine and_iff_right_of_imp fun h => ?_
  obtain ⟨last, hl⟩ := Pool.alive_iff.mp h.1
  exact Pool.lt_next_of_held hl

/-- What a clearing does: it retires the nodes that it finds alive, counts each of them once, and
leaves deque, store and buffers empty. A node that both of its passes meet is alive for the first
one only. -/
structure Purges (e : Engine) (count : Nat) (e' : Engine) : Prop where
  count : count = e.found.length
  nodes : ∀ id, e'.pool.node? id =
    if id ∈ e.found then (e.pool.node? id).map (·.write none) else e.pool.node? id
  unlinked : e'.deque.Ring []
  unmapped : e'.store.entries = []
  size : e'.store.size = 0
  buffers : e'.buffers = e.buffers.emptied

theorem purges_clear (hd : e.deque.WellFormed) (hs : e.store.Sound e.pool)
    (hb : e.buffers.Sound) : Purges e e.clear.1 e.clear.2 := by
  obtain ⟨hpool, hstore⟩ := e.unchanged_replay
  have hd' : e.replay.2.deque.WellFormed := by
    rw [replay_eq e hb]
    exact (order_applyAll hd _).1
  have hs' : e.replay.2.store.Sound e.replay.2.pool := by rwa [hpool, hstore]
  obtain ⟨gone, hnodup, hgone, hcount, hnodes, hring, hnil⟩ := clear_passes hd' hs'
  have hsize := ((Evolves.of_changes e.changes_clear).store hs).size
  have hbuffers := buffers_clear hb
  rw [hpool, hstore] at hgone
  rw [hpool] at hnodes
  have hfound (id : NodeId) : id ∈ gone ↔ id ∈ e.found := (hgone id).trans mem_found_iff.symm
  have hperm : gone.Perm e.found :=
    (List.perm_ext_iff_of_nodup hnodup (List.nodup_range.filter _)).mpr hfound
  simp only [clear_eq] at hsize hbuffers ⊢
  refine ⟨hcount.trans hperm.length_eq, fun id => ?_, hring, hnil, ?_, hbuffers⟩
  · rw [hnodes]
    simp only [hfound]
  · rw [hsize, hnil]
    rfl

namespace Purges

variable {count : Nat}

theorem held (h : Purges e count e') (id : NodeId) :
    e'.pool.held id = if id ∈ e.found then none else e.pool.held id := by
  rw [Pool.held, Pool.held, h.nodes]
  split
  · cases e.pool.node? id <;> rfl
  · rfl

/-- A node that a clearing comes across is retired, whether it was alive or not. -/
theorem retired (h : Purges e count e')
    (hid : id ∈ e.replay.2.deque.order ∨ id ∈ e.store.nodes) : e'.pool.held id = none := by
  rw [h.held]
  by_cases hlive : e.pool.alive id
  · rw [if_pos (mem_found_iff.mpr ⟨hlive, hid⟩)]
  · have hdead : e.pool.held id = none := by simpa [Pool.alive] using hlive
    rw [hdead, ite_self]

end Purges

/-- A linked node is still linked after the replay unless an event takes it out. -/
theorem mem_order_replay (hd : e.deque.WellFormed) (hb : e.buffers.Sound) (hm : id ∈ e.deque.order)
    (hr : ⟨.remove, id⟩ ∉ e.buffers.events) : id ∈ e.replay.2.deque.order := by
  rw [replay_eq e hb]
  exact (order_applyAll hd _).2 ▸ mem_foldl_reorder hm hr

end Engine

end BoundedCache
