import BoundedCache.Proofs.Engine.Accounted

namespace BoundedCache.Engine.Accounted

variable {e : Engine} {pending : List Event} {id : NodeId} {l : Linked}

/-- With no write pending, exactly the live nodes are linked. -/
theorem linked_iff (h : Accounted pending e) (hr : ∀ ev ∈ pending, ev.kind = .read) :
    (∃ l ∈ e.deque.toList, l.node = id) ↔ (e.pool.held id).isSome := by
  constructor
  · intro ⟨l, hl, hn⟩
    have hw := h.deque.weightOf?_eq_some_iff.mpr ⟨l, hl, hn, rfl⟩
    cases hh : e.pool.held id with
    | none => exact absurd (hr _ (h.removes id _ hh hw)) (by simp)
    | some held => rfl
  · intro hs
    obtain ⟨held, hh⟩ := Option.isSome_iff_exists.mp hs
    cases hw : e.deque.weightOf? id with
    | none => exact absurd (hr _ (h.adds id held hh hw)) (by simp)
    | some w =>
      obtain ⟨l, hl, hn, _⟩ := h.deque.weightOf?_eq_some_iff.mp hw
      exact ⟨l, hl, hn⟩

/-- With no write pending, a link has the weight of its live node. -/
theorem exists_held (h : Accounted pending e) (hr : ∀ ev ∈ pending, ev.kind = .read)
    (hl : l ∈ e.deque.toList) : ∃ held, e.pool.held l.node = some held ∧ held.weight = l.weight := by
  obtain ⟨held, hh⟩ := Option.isSome_iff_exists.mp ((h.linked_iff hr).mp ⟨l, hl, rfl⟩)
  have hw := h.deque.weightOf?_eq_some_iff.mpr ⟨l, hl, rfl, rfl⟩
  rcases h.updates l.node held l.weight hh hw with heq | hup
  · exact ⟨held, hh, heq⟩
  · exact absurd (hr _ hup) (by simp)

end Accounted

theorem Paired.mem_nodes_iff {e : Engine} {id : NodeId} (h : e.Paired) :
    id ∈ e.store.nodes ↔ (e.pool.held id).isSome :=
  h.store.mem_nodes_iff.trans (h.mapped id)

/-- With no write pending, mapped and linked nodes are the same. -/
theorem Accounted.perm_nodes {e : Engine} {pending : List Event} (h : Accounted pending e)
    (hr : ∀ ev ∈ pending, ev.kind = .read) :
    e.store.nodes.Perm (e.deque.toList.map (·.node)) := by
  apply (List.perm_ext_iff_of_nodup h.store.nodup_nodes (Deque.Ring.nodup_nodes h.deque)).mpr
  intro id
  rw [h.mem_nodes_iff, ← h.linked_iff hr, List.mem_map]

end BoundedCache.Engine
