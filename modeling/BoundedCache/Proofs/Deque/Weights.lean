import BoundedCache.Proofs.Deque.Ring

namespace BoundedCache.Deque

variable {d d' : Deque} {s : Slot} {xs : List Linked} {id other : NodeId} {w : Weight}

def weightOf? (d : Deque) (id : NodeId) : Option Weight :=
  (d.slotOf id).map fun s => (d.link s).weight

def WellFormed (d : Deque) : Prop := d.Ring d.toList

theorem Ring.wellFormed (h : Ring d xs) : d.WellFormed := by
  rw [WellFormed, h.toList_eq]
  exact h

theorem wellFormed_empty : ({} : Deque).WellFormed := Ring.empty.wellFormed

theorem Ring.weightOf?_eq_some_iff (h : Ring d xs) :
    d.weightOf? id = some w ↔ ∃ l ∈ xs, l.node = id ∧ l.weight = w := by
  rw [weightOf?, Option.map_eq_some_iff]
  constructor
  · intro ⟨s, hs, hw⟩
    obtain ⟨l, hl, hn, rfl⟩ := h.recorded id s hs
    exact ⟨l, hl, hn, (h.holds l hl).2.symm.trans hw⟩
  · intro ⟨l, hl, hn, hw⟩
    exact ⟨l.slot, hn ▸ h.records l hl, (h.holds l hl).2.trans hw⟩

theorem weightOf?_eq_none_iff : d.weightOf? id = none ↔ d.slotOf id = none := by
  simp [weightOf?]

namespace WellFormed

theorem weightOf?_eq_some_iff (h : d.WellFormed) :
    d.weightOf? id = some w ↔ ∃ l ∈ d.toList, l.node = id ∧ l.weight = w :=
  Ring.weightOf?_eq_some_iff h

/-- The slot that a node records picks its node out of the list. -/
theorem exists_ring (h : d.WellFormed) (hs : d.slotOf id = some s) :
    ∃ front l back, d.Ring (front ++ l :: back) ∧ l.node = id ∧ l.slot = s := by
  obtain ⟨front, l, back, hx, he⟩ := Ring.exists_of_slotOf h hs
  exact ⟨front, l, back, hx ▸ h, he⟩

theorem moveToBack (h : d.WellFormed) (hs : d.slotOf id = some s) :
    (d.moveToBack s).WellFormed ∧
      ∀ other, (d.moveToBack s).weightOf? other = d.weightOf? other := by
  obtain ⟨front, l, back, hr, rfl, rfl⟩ := h.exists_ring hs
  refine ⟨hr.moveToBack.wellFormed, fun other => Option.ext fun w => ?_⟩
  rw [hr.moveToBack.weightOf?_eq_some_iff, hr.weightOf?_eq_some_iff]
  have hperm : (front ++ back ++ [l]).Perm (front ++ l :: back) :=
    (List.perm_append_singleton l _).trans List.perm_middle.symm
  exact exists_congr fun m => and_congr_left fun _ => hperm.mem_iff

theorem setWeight (h : d.WellFormed) (hs : d.slotOf id = some s) (w : Weight) :
    (d.setWeight s w).WellFormed ∧
      (∀ other, (d.setWeight s w).weightOf? other =
        if other = id then some w else d.weightOf? other) ∧
      ∀ other, (d.setWeight s w).slotOf other = d.slotOf other := by
  obtain ⟨front, l, back, hr, rfl, rfl⟩ := h.exists_ring hs
  have hset := hr.setWeight (w := w)
  refine ⟨hset.wellFormed, fun other => ?_, fun other => ?_⟩
  · split
    · rename_i he
      exact hset.weightOf?_eq_some_iff.mpr ⟨{ l with weight := w }, by simp, he.symm, rfl⟩
    · rename_i hne
      refine Option.ext fun w' => ?_
      rw [hset.weightOf?_eq_some_iff, hr.weightOf?_eq_some_iff]
      refine exists_congr fun m => and_congr_left fun ⟨hm, _⟩ => ?_
      have hml : m ≠ l := fun he => hne (he ▸ hm).symm
      have hml' : m ≠ { l with weight := w } := fun he => hne (by rw [← hm, he])
      simp [hml, hml']
  · rw [Deque.setWeight]
    split <;> rfl

theorem pushBack (h : d.WellFormed) (hs : d.slotOf id = none) (w : Weight) :
    (d.pushBack id w).2.WellFormed ∧
      ∀ other, (d.pushBack id w).2.weightOf? other =
        if other = id then some w else d.weightOf? other := by
  have hpush := Ring.pushBack (w := w) h hs
  refine ⟨hpush.wellFormed, fun other => ?_⟩
  split
  · rename_i he
    exact hpush.weightOf?_eq_some_iff.mpr ⟨⟨(d.pushBack id w).1, id, w⟩, by simp, he.symm, rfl⟩
  · rename_i hne
    refine Option.ext fun w' => ?_
    rw [hpush.weightOf?_eq_some_iff, h.weightOf?_eq_some_iff]
    refine exists_congr fun m => and_congr_left fun ⟨hm, _⟩ => ?_
    have hml : m ≠ ⟨(d.pushBack id w).1, id, w⟩ := fun he => hne (by rw [← hm, he])
    simp [hml]

theorem unlink (h : d.WellFormed) (hs : d.slotOf id = some s) :
    ∃ w d', d.weightOf? id = some w ∧ d.unlink s = some ((id, w), d') ∧ d'.WellFormed ∧
      ∀ other, d'.weightOf? other = if other = id then none else d.weightOf? other := by
  obtain ⟨front, l, back, hr, rfl, rfl⟩ := h.exists_ring hs
  obtain ⟨d', hd, hr'⟩ := hr.unlink
  refine ⟨l.weight, d', ?_, hd, hr'.wellFormed, fun other => Option.ext fun w' => ?_⟩
  · exact hr.weightOf?_eq_some_iff.mpr ⟨l, by simp, rfl, rfl⟩
  · split
    · rename_i he
      rw [hr'.weightOf?_eq_some_iff]
      constructor
      · intro ⟨m, hm, hn, _⟩
        have hnode := List.mem_map_of_mem (f := (·.node)) hm
        exact absurd (he ▸ hn ▸ hnode) hr.node_not_mem
      · intro h
        cases h
    · rename_i hne
      rw [hr'.weightOf?_eq_some_iff, hr.weightOf?_eq_some_iff]
      refine exists_congr fun m => and_congr_left fun ⟨hm, _⟩ => ?_
      have hml : m ≠ l := fun he => hne (he ▸ hm).symm
      simp [hml]

/-- The first node is taken out of a deque that has one. -/
theorem popFront? (h : d.WellFormed) :
    (d.popFront? = none ∧ d.toList = [] ∧ d.weightedSize = 0) ∨
      ∃ l rest d', d.toList = l :: rest ∧ d.popFront? = some (l.node, d') ∧ d'.WellFormed ∧
        d'.toList = rest ∧
        ∀ other, d'.weightOf? other = if other = l.node then none else d.weightOf? other := by
  cases hx : d.toList with
  | nil =>
    have hr : d.Ring [] := hx ▸ h
    exact Or.inl ⟨hr.popFront?_nil, rfl, by simp [hr.weightedSize]⟩
  | cons l rest =>
    have hr : d.Ring ([] ++ l :: rest) := hx ▸ h
    obtain ⟨w, d', hw, hd, hwf, hother⟩ := h.unlink (hr.records l (by simp))
    obtain ⟨d1, hd1, hr1⟩ := hr.unlink
    rw [hd] at hd1
    simp only [Option.some.injEq, Prod.mk.injEq] at hd1
    obtain ⟨_, rfl⟩ := hd1
    refine Or.inr ⟨l, rest, d', rfl, ?_, hwf, hr1.toList_eq, hother⟩
    simp [Deque.popFront?, Ring.head?_cons hr, hd]

end WellFormed

end BoundedCache.Deque
