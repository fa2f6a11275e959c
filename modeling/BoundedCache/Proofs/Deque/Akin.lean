import Mathlib.Data.List.Basic
import BoundedCache.Proofs.Deque.Weights

namespace BoundedCache.Deque

variable {d d' : Deque} {s s' : Slot} {xs ys : List Linked} {id : NodeId} {w : Weight}

def contents (d : Deque) : List (NodeId × Weight) := d.toList.map fun l => (l.node, l.weight)

theorem Ring.contents_eq (h : Ring d xs) : d.contents = xs.map fun l => (l.node, l.weight) := by
  rw [contents, h.toList_eq]

structure Akin (d d' : Deque) : Prop where
  left : d.WellFormed
  right : d'.WellFormed
  same : d'.contents = d.contents

namespace Akin

theorem of_rings (h : Ring d xs) (h' : Ring d' ys)
    (he : ys.map (fun l => (l.node, l.weight)) = xs.map fun l => (l.node, l.weight)) :
    d.Akin d' :=
  ⟨h.wellFormed, h'.wellFormed, by rw [h.contents_eq, h'.contents_eq, he]⟩

theorem nodes_eq (h : d.Akin d') : d'.toList.map (·.node) = d.toList.map (·.node) := by
  have hsame := congrArg (List.map Prod.fst) h.same
  rw [contents, contents, List.map_map, List.map_map] at hsame
  exact hsame

theorem length_eq (h : d.Akin d') : d'.toList.length = d.toList.length := by
  simpa using congrArg List.length h.nodes_eq

theorem weightedSize_eq (h : d.Akin d') : d'.weightedSize = d.weightedSize := by
  have hsame := congrArg (List.map fun p : NodeId × Weight => p.2.toNat) h.same
  rw [contents, contents, List.map_map, List.map_map] at hsame
  rw [Ring.weightedSize h.left, Ring.weightedSize h.right]
  exact congrArg List.sum hsame

theorem slotOf_eq_none_iff (h : d.Akin d') : d'.slotOf id = none ↔ d.slotOf id = none := by
  rw [Ring.slotOf_eq_none_iff h.left, Ring.slotOf_eq_none_iff h.right, h.nodes_eq]

/-- A linked node splits both deques at the same place. -/
theorem exists_rings (h : d.Akin d') (hs : d.slotOf id = some s) (hs' : d'.slotOf id = some s') :
    ∃ front l back front' l' back', d.Ring (front ++ l :: back) ∧ l.slot = s ∧
      d'.Ring (front' ++ l' :: back') ∧ l'.slot = s' ∧ l'.node = l.node ∧ l'.weight = l.weight ∧
      front'.map (fun l => (l.node, l.weight)) = front.map (fun l => (l.node, l.weight)) ∧
      back'.map (fun l => (l.node, l.weight)) = back.map fun l => (l.node, l.weight) := by
  obtain ⟨front, l, back, hr, hn, hl⟩ := h.left.exists_ring hs
  obtain ⟨front', l', back', hr', hn', hl'⟩ := h.right.exists_ring hs'
  have hsame := h.same
  rw [hr.contents_eq, hr'.contents_eq, List.map_append, List.map_append, List.map_cons,
    List.map_cons] at hsame
  have hout (part : List Linked) (hpart : ∀ m ∈ part, m ∈ front' ++ back') :
      (l.node, l.weight) ∉ part.map fun l => (l.node, l.weight) := by
    intro hm
    obtain ⟨m, hm, he⟩ := List.mem_map.mp hm
    refine hr'.node_not_mem (List.mem_map.mpr ⟨m, hpart m hm, ?_⟩)
    rw [hn', ← hn]
    exact congrArg Prod.fst he
  obtain ⟨hfront, hmiddle, hback⟩ := (List.append_cons_inj_of_notMem
    (hout front' fun m hm => List.mem_append_left _ hm)
    (hout back' fun m hm => List.mem_append_right _ hm)).mp hsame
  exact ⟨front, l, back, front', l', back', hr, hl, hr', hl', hn'.trans hn.symm,
    congrArg Prod.snd hmiddle, hfront, hback⟩

theorem moveToBack (h : d.Akin d') (hs : d.slotOf id = some s) (hs' : d'.slotOf id = some s') :
    (d.moveToBack s).Akin (d'.moveToBack s') := by
  obtain ⟨front, l, back, front', l', back', hr, rfl, hr', rfl, hn, hw, hf, hb⟩ :=
    h.exists_rings hs hs'
  exact of_rings hr.moveToBack hr'.moveToBack (by simp [hn, hw, hf, hb])

theorem setWeight (h : d.Akin d') (hs : d.slotOf id = some s) (hs' : d'.slotOf id = some s')
    (w : Weight) : (d.setWeight s w).Akin (d'.setWeight s' w) := by
  obtain ⟨front, l, back, front', l', back', hr, rfl, hr', rfl, hn, _, hf, hb⟩ :=
    h.exists_rings hs hs'
  exact of_rings hr.setWeight hr'.setWeight (by simp [hn, hf, hb])

theorem pushBack (h : d.Akin d') (hs : d.slotOf id = none) (w : Weight) :
    (d.pushBack id w).2.Akin (d'.pushBack id w).2 := by
  have hsame := h.same
  rw [contents, contents] at hsame
  exact of_rings (Ring.pushBack h.left hs) (Ring.pushBack h.right (h.slotOf_eq_none_iff.mpr hs))
    (by simp [hsame])

theorem unlink (h : d.Akin d') (hs : d.slotOf id = some s) (hs' : d'.slotOf id = some s') :
    ∃ result result' d1 d1', d.unlink s = some (result, d1) ∧
      d'.unlink s' = some (result', d1') ∧ d1.Akin d1' := by
  obtain ⟨front, l, back, front', l', back', hr, rfl, hr', rfl, _, _, hf, hb⟩ :=
    h.exists_rings hs hs'
  obtain ⟨d1, hd, hd1⟩ := hr.unlink
  obtain ⟨d1', hd', hd1'⟩ := hr'.unlink
  exact ⟨_, _, d1, d1', hd, hd', of_rings hd1 hd1' (by simp [hf, hb])⟩

/-- The same node is taken out of both. -/
theorem popFront? (h : d.Akin d') :
    (d.toList = [] ∧ d.popFront? = none ∧ d'.popFront? = none) ∨
      ∃ id d1 d1', d.popFront? = some (id, d1) ∧ d'.popFront? = some (id, d1') ∧ d1.Akin d1' ∧
        d.toList.length = d1.toList.length + 1 := by
  have hlength := h.length_eq
  have hsame := h.same
  rcases h.left.popFront? with ⟨hp, hx, _⟩ | ⟨l, rest, d1, hx, hp, hd, hrest, _⟩
  · rcases h.right.popFront? with ⟨hp', _, _⟩ | ⟨l', rest', d1', hx', _⟩
    · exact Or.inl ⟨hx, hp, hp'⟩
    · simp [hx, hx'] at hlength
  · rcases h.right.popFront? with ⟨_, hx', _⟩ | ⟨l', rest', d1', hx', hp', hd', hrest', _⟩
    · simp [hx, hx'] at hlength
    · rw [contents, contents, hx, hx', List.map_cons, List.map_cons, List.cons.injEq] at hsame
      have hnode : l'.node = l.node := congrArg Prod.fst hsame.1
      rw [hnode] at hp'
      refine Or.inr ⟨l.node, d1, d1', hp, hp', ⟨hd, hd', ?_⟩, by simp [hx, hrest]⟩
      rw [contents, contents, hrest, hrest', hsame.2]

/-- All nodes are taken out of both in the same order. -/
theorem drain (h : d.Akin d') : d'.drain.1 = d.drain.1 ∧ d.drain.2.Akin d'.drain.2 := by
  obtain ⟨d1, hd, hd1⟩ := Ring.drain_eq h.left
  obtain ⟨d1', hd', hd1'⟩ := Ring.drain_eq h.right
  rw [hd, hd', h.nodes_eq]
  exact ⟨rfl, of_rings hd1 hd1' rfl⟩

end Akin

end BoundedCache.Deque
