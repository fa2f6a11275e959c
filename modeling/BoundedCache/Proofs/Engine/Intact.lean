import BoundedCache.Proofs.Deque.Validate
import BoundedCache.Proofs.Engine.Changes
import BoundedCache.Proofs.Engine.Recency

namespace BoundedCache

namespace Deque

variable {d d' : Deque} {id : NodeId} {s : Slot} {xs ys : List Linked} {l : Linked}

/-- Nothing is wrong with a deque: its own check passes, the recorded slots are those that hold the
nodes, and the slots behind the sentinel are the linked ones and the freed ones, each just once. -/
structure Intact (d : Deque) : Prop where
  valid : d.validate = .ok ()
  recorded : ∀ id s, d.slotOf id = some s ↔ (d.link s).node = some id
  arena : (d.toList.map (·.slot) ++ d.free).Perm (List.range' 1 (d.links.size - 1))
  linked : ∀ l ∈ d.toList, d.slotOf l.node = some l.slot
  freed : ∀ s ∈ d.free, (d.link s).node = none

/-- A slot that holds a node is the slot that the node records. -/
theorem Ring.slotOf_eq_some_iff (h : d.Ring xs) :
    d.slotOf id = some s ↔ (d.link s).node = some id := by
  constructor
  · intro hs
    obtain ⟨l, hl, rfl, rfl⟩ := h.recorded id s hs
    exact (h.holds l hl).1
  · intro hn
    by_cases hs : s ∈ xs.map (·.slot)
    · obtain ⟨l, hl, rfl⟩ := List.mem_map.mp hs
      obtain rfl : l.node = id := Option.some.inj ((h.holds l hl).1.symm.trans hn)
      exact h.records l hl
    · exact absurd ((h.node_eq_none hs).symm.trans hn) (by simp)

/-- The sentinel takes the first slot; the linked nodes and the free stack share the others. -/
theorem Ring.perm_arena (h : d.Ring xs) :
    (xs.map (·.slot) ++ d.free).Perm (List.range' 1 (d.links.size - 1)) := by
  have hsize := h.length_lt_size
  have hrange : List.range d.links.size = 0 :: List.range' 1 (d.links.size - 1) := by
    obtain ⟨n, hn⟩ : ∃ n, d.links.size = n + 1 := ⟨d.links.size - 1, by omega⟩
    rw [hn, List.range_eq_range', List.range'_succ]
    rfl
  have harena := h.arena
  rw [hrange] at harena
  exact harena.cons_inv

theorem WellFormed.intact (h : d.WellFormed) : d.Intact where
  valid := Ring.validate_eq_ok h
  recorded _ _ := Ring.slotOf_eq_some_iff h
  arena := Ring.perm_arena h
  linked := h.records
  freed s hs := h.vacant s (List.mem_cons_of_mem 0 hs)

def others (d : Deque) (id : NodeId) : List Linked := d.toList.filter (·.node ≠ id)

/-- The other nodes are those on both sides. -/
theorem Ring.others_eq (h : d.Ring (xs ++ l :: ys)) : d.others l.node = xs ++ ys := by
  have hunique := h.node_not_mem
  rw [List.map_append, List.mem_append, not_or] at hunique
  have keep (zs : List Linked) (hz : l.node ∉ zs.map (·.node)) :
      zs.filter (·.node ≠ l.node) = zs :=
    List.filter_eq_self.mpr fun m hm =>
      decide_eq_true fun he => hz (he ▸ List.mem_map_of_mem hm)
  rw [others, h.toList_eq, List.filter_append, List.filter_cons_of_neg (by simp),
    keep xs hunique.1, keep ys hunique.2]

namespace WellFormed

theorem others_moveToBack (h : d.WellFormed) (hs : d.slotOf id = some s) :
    (d.moveToBack s).others id = d.others id := by
  obtain ⟨front, l, back, hr, rfl, rfl⟩ := h.exists_ring hs
  have hlast := hr.moveToBack.others_eq
  rw [List.append_nil] at hlast
  exact hlast.trans hr.others_eq.symm

theorem others_setWeight (h : d.WellFormed) (hs : d.slotOf id = some s) (w : Weight) :
    (d.setWeight s w).others id = d.others id := by
  obtain ⟨front, l, back, hr, rfl, rfl⟩ := h.exists_ring hs
  exact (hr.setWeight (w := w)).others_eq.trans hr.others_eq.symm

theorem others_pushBack (h : d.WellFormed) (hs : d.slotOf id = none) (w : Weight) :
    (d.pushBack id w).2.others id = d.others id := by
  have hpush := Ring.pushBack (w := w) h hs
  have hunlinked := (Ring.slotOf_eq_none_iff h).mp hs
  have hall : d.others id = d.toList :=
    List.filter_eq_self.mpr fun m hm =>
      decide_eq_true fun he => hunlinked (he ▸ List.mem_map_of_mem hm)
  have hlast := hpush.others_eq
  rw [List.append_nil] at hlast
  exact hlast.trans hall.symm

theorem others_unlink (h : d.WellFormed) (hs : d.slotOf id = some s) {result : NodeId × Weight}
    (hu : d.unlink s = some (result, d')) : d'.others id = d.others id := by
  obtain ⟨front, l, back, hr, rfl, rfl⟩ := h.exists_ring hs
  obtain ⟨d1, hd, hr'⟩ := hr.unlink
  cases hu.symm.trans hd
  have hunique := hr.node_not_mem
  rw [hr.others_eq, others, hr'.toList_eq]
  exact List.filter_eq_self.mpr fun m hm =>
    decide_eq_true fun he => hunique (he ▸ List.mem_map_of_mem hm)

end WellFormed

/-- What an event can make of a deque. It names a node and never a slot, so one that is out of date
finds the slot that the node has by now, or none. -/
inductive Served (d : Deque) (id : NodeId) : Deque → Prop where
  | idle : Served d id d
  | link (unlinked : d.slotOf id = none) (w : Weight) : Served d id (d.pushBack id w).2
  | move {s : Slot} (linked : d.slotOf id = some s) : Served d id (d.moveToBack s)
  | weigh {s : Slot} (linked : d.slotOf id = some s) (w : Weight) : Served d id (d.setWeight s w)
  | renew {s : Slot} (linked : d.slotOf id = some s) (w : Weight) :
      Served d id ((d.setWeight s w).moveToBack s)
  | unlink {s : Slot} {result : NodeId × Weight} {d' : Deque} (linked : d.slotOf id = some s)
      (taken : d.unlink s = some (result, d')) : Served d id d'

end Deque

namespace Engine

variable {e e' : Engine}

theorem served_apply (h : e.deque.WellFormed) (ev : Event) :
    e.deque.Served ev.node (e.apply ev).deque := by
  obtain ⟨kind, id⟩ := ev
  unfold apply
  cases hs : e.deque.slotOf id with
  | none =>
    cases kind with
    | read | update | remove => exact .idle
    | add =>
      cases e.pool.held id with
      | none => exact .idle
      | some held => exact .link hs held.weight
  | some slot =>
    cases kind with
    | add => exact .idle
    | read =>
      cases e.pool.held id with
      | none => exact .idle
      | some held => exact .move hs
    | remove =>
      obtain ⟨w, d, _, hu, _⟩ := h.unlink hs
      simp only [hu]
      exact .unlink hs hu
    | update =>
      cases e.pool.held id with
      | none => exact .idle
      | some held =>
        cases ht : e.touchOnUpdate with
        | false => simpa [ht] using .weigh hs held.weight
        | true => simpa [ht] using .renew hs held.weight

/-- A change of an engine keeps the deque well formed, whatever is pending and alive. -/
theorem Change.wellFormed (h : Change e e') (hd : e.deque.WellFormed) : e'.deque.WellFormed := by
  cases h with
  | rebuffer | rewrite | insert | supersede | unmap => exact hd
  | apply ev => exact (order_apply hd ev).1
  | pop hp =>
    rcases hd.popFront? with ⟨hnone, _⟩ | ⟨l, rest, d, _, hsome, hd', _⟩
    · cases hp.symm.trans hnone
    · cases hp.symm.trans hsome
      exact hd'
  | weigh hs w => exact (hd.setWeight hs w).1

theorem Changes.wellFormed (h : Changes e e') (hd : e.deque.WellFormed) : e'.deque.WellFormed := by
  induction h with
  | refl => exact hd
  | tail _ hstep ih => exact hstep.wellFormed ih

/-- An event acts on the link of the node that it names. All other links stay in their slots, in
their order and at their weights. -/
theorem others_apply (h : e.deque.WellFormed) (ev : Event) :
    (e.apply ev).deque.others ev.node = e.deque.others ev.node := by
  have hserved := served_apply h ev
  generalize (e.apply ev).deque = d at hserved
  cases hserved with
  | idle => rfl
  | link unlinked w => exact h.others_pushBack unlinked w
  | move linked => exact h.others_moveToBack linked
  | weigh linked w => exact h.others_setWeight linked w
  | renew linked w =>
    obtain ⟨hd, _, hslot⟩ := h.setWeight linked w
    exact (hd.others_moveToBack ((hslot _).trans linked)).trans (h.others_setWeight linked w)
  | unlink linked taken => exact h.others_unlink linked taken

end Engine

end BoundedCache
