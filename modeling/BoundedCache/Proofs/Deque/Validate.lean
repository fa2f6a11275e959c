import BoundedCache.Deque.Validate
import BoundedCache.Proofs.Deque.Ring

namespace BoundedCache.Deque

variable {d : Deque} {s : Slot} {xs front back : List Linked} {l : Linked}

/-- The links lead from the sentinel through the slots of `xs` and back, and the books agree with
what these slots hold. What the other slots hold is not looked at. -/
structure Closed (d : Deque) (xs : List Linked) : Prop where
  path : Path d 0 (xs.map (·.slot)) 0
  nodup : (0 :: xs.map (·.slot)).Nodup
  holds : ∀ l ∈ xs, (d.link l.slot).node = some l.node ∧ (d.link l.slot).weight = l.weight
  records : ∀ l ∈ xs, d.slotOf l.node = some l.slot
  length : d.length = xs.length
  weightedSize : d.weightedSize = (xs.map (·.weight.toNat)).sum

theorem Ring.closed (h : Ring d xs) : Closed d xs :=
  ⟨h.path, h.nodup_slots, h.holds, h.records, h.length, h.weightedSize⟩

/-- A slot beyond the arena holds no node. -/
theorem inArena_of_node {id : NodeId} (h : (d.link s).node = some id) : d.InArena s := by
  apply Nat.lt_of_not_le
  intro hle
  have hlink : d.link s = {} := by rw [link, Array.getElem?_eq_none hle, Option.getD_none]
  rw [hlink] at h
  cases h

/-- A slot without a fault holds a node, the node records the slot, and the links before it and
behind it lead back to it. -/
theorem linkFault?_eq_none_iff : d.linkFault? s = none ↔
    ∃ id, (d.link s).node = some id ∧ d.slotOf id = some s ∧
      (d.prev s ≠ s ∧ d.next s ≠ s) ∧ d.next (d.prev s) = s ∧ d.prev (d.next s) = s := by
  unfold linkFault?
  cases (d.link s).node with
  | none => simp
  | some id =>
    by_cases hown : d.prev s = s ∨ d.next s = s
    · have hfalse : ¬ (d.prev s ≠ s ∧ d.next s ≠ s) := by rwa [← not_or, not_not]
      simp [hown, hfalse]
    · by_cases hlinks : d.next (d.prev s) ≠ s ∨ d.prev (d.next s) ≠ s
      · have hfalse : ¬ (d.next (d.prev s) = s ∧ d.prev (d.next s) = s) := by
          rwa [not_and_or]
        simp [hown, hlinks, hfalse]
      · simp_all

namespace Closed

theorem length_le_size (h : Closed d xs) : xs.length ≤ d.links.size := by
  have hsub : xs.map (·.slot) ⊆ List.range d.links.size := by
    intro s hs
    obtain ⟨l, hl, rfl⟩ := List.mem_map.mp hs
    exact List.mem_range.mpr (inArena_of_node (h.holds l hl).1)
  simpa using List.Nodup.length_le_of_subset (List.nodup_cons.mp h.nodup).2 hsub

/-- The list that the check has followed is the one that the deque shows. -/
theorem toList_eq (h : Closed d xs) : d.toList = xs :=
  h.path.walkFrom_eq h.length_le_size (List.nodup_cons.mp h.nodup).1 h.holds

/-- Distinct slots are recorded by distinct nodes. -/
theorem nodup_nodes (h : Closed d xs) : (xs.map (·.node)).Nodup := by
  have hslots := (List.nodup_cons.mp h.nodup).2
  rw [List.Nodup, List.pairwise_map] at hslots ⊢
  refine hslots.imp_of_mem fun hl hm hne he => hne ?_
  exact Option.some.inj ((h.records _ hl).symm.trans ((congrArg d.slotOf he).trans (h.records _ hm)))

/-- A link on the path agrees with its neighbours and with its node. -/
theorem linkFault?_eq_none (h : Closed d (front ++ l :: back)) (hs : s ∈ 0 :: front.map (·.slot))
    (hpath : Path d s ((l :: back).map (·.slot)) 0) : d.linkFault? l.slot = none := by
  have hnodup := h.nodup
  rw [List.map_append, List.map_cons] at hnodup
  cases hpath with
  | cons _ _ _ _ next prev tail =>
    have hprev : d.prev l.slot ≠ l.slot := by grind
    have hnext : d.next l.slot ≠ l.slot := by
      have := tail.next_mem
      grind
    have hback : d.prev (d.next l.slot) = l.slot := tail.prev_next
    have hfront : d.next (d.prev l.slot) = l.slot := by rw [prev, next]
    exact linkFault?_eq_none_iff.mpr ⟨l.node, (h.holds l (by simp)).1, h.records l (by simp),
      ⟨hprev, hnext⟩, hfront, hback⟩

/-- A walk of the check that has enough steps counts the rest of the path. -/
theorem survey_eq_ok (h : Closed d (front ++ back)) {n : Nat} (hn : back.length ≤ n)
    {seen : List Slot} (hseen : seen ⊆ front.map (·.slot)) (hs : s ∈ 0 :: front.map (·.slot))
    (hpath : Path d s (back.map (·.slot)) 0) (tally : Tally) :
    d.survey n seen tally (d.next s) =
      .ok ⟨tally.count + back.length, tally.weight + (back.map (·.weight.toNat)).sum⟩ := by
  induction back generalizing front n seen tally s with
  | nil =>
    cases hpath with
    | last _ _ next prev =>
      rw [next]
      cases n <;> simp [survey]
  | cons l back ih =>
    have hfault := h.linkFault?_eq_none hs hpath
    have hnodup := h.nodup
    rw [List.map_append, List.map_cons] at hnodup
    have h0 : l.slot ≠ 0 := by grind
    have hnew : l.slot ∉ seen := fun hm => by
      have := hseen hm
      grind
    have hweight := (h.holds l (by simp)).2
    cases n with
    | zero => simp at hn
    | succ n =>
      cases hpath with
      | cons _ _ _ _ next prev tail =>
        rw [List.append_cons] at h
        have hsub : l.slot :: seen ⊆ (front ++ [l]).map (·.slot) := by grind
        have hrest := ih h (by simpa using hn) hsub (by simp) tail
          ⟨tally.count + 1, tally.weight + l.weight.toNat⟩
        simp only [next, survey, h0, hnew, hfault, hweight, if_false, hrest]
        simp only [List.length_cons, List.map_cons, List.sum_cons]
        congr 2 <;> omega

theorem validate_eq_ok (h : Closed d xs) : d.validate = .ok () := by
  have hall : Closed d ([] ++ xs) := h
  have hsurvey : d.survey d.links.size [] {} (d.next 0) = _ :=
    hall.survey_eq_ok h.length_le_size (by simp) (by simp) h.path {}
  simp [validate, h.path.next_prev, h.path.prev_next, hsurvey, h.length, h.weightedSize]

end Closed

/-- A walk of the check that comes back to the sentinel has followed a path through slots that it
had not passed before, and has counted what they hold. -/
theorem exists_of_survey {n : Nat} {seen : List Slot} {tally total : Tally}
    (hs : d.prev (d.next s) = s) (h : d.survey n seen tally (d.next s) = .ok total) :
    ∃ xs : List Linked, Path d s (xs.map (·.slot)) 0 ∧
      (0 :: xs.map (·.slot)).Nodup ∧ (∀ l ∈ xs, l.slot ∉ seen) ∧
      (∀ l ∈ xs, (d.link l.slot).node = some l.node ∧ (d.link l.slot).weight = l.weight) ∧
      (∀ l ∈ xs, d.slotOf l.node = some l.slot) ∧
      total = ⟨tally.count + xs.length, tally.weight + (xs.map (·.weight.toNat)).sum⟩ := by
  induction n generalizing s seen tally with
  | zero =>
    unfold survey at h
    split at h
    · rename_i h0
      rw [h0] at hs
      cases h
      exact ⟨[], .last s 0 h0 hs, by simp⟩
    · cases h
  | succ n ih =>
    unfold survey at h
    split at h
    · rename_i h0
      rw [h0] at hs
      cases h
      exact ⟨[], .last s 0 h0 hs, by simp⟩
    · rename_i h0
      split at h
      · cases h
      · rename_i hnew
        split at h
        · cases h
        · rename_i hfault
          obtain ⟨id, hnode, hslot, _, _, hback⟩ := linkFault?_eq_none_iff.mp hfault
          obtain ⟨xs, hpath, hnodup, hunseen, hholds, hrecords, rfl⟩ := ih hback h
          have hfresh : d.next s ∉ xs.map (·.slot) := by
            intro hm
            obtain ⟨l, hl, he⟩ := List.mem_map.mp hm
            exact hunseen l hl (he ▸ List.mem_cons_self)
          refine ⟨⟨d.next s, id, (d.link (d.next s)).weight⟩ :: xs,
            .cons s (d.next s) 0 _ rfl hs hpath, ?_, ?_, ?_, ?_, ?_⟩
          · rw [List.map_cons, List.nodup_cons, List.nodup_cons, List.mem_cons, not_or]
            have hrest := List.nodup_cons.mp hnodup
            exact ⟨⟨fun he => h0 he.symm, hrest.1⟩, hfresh, hrest.2⟩
          · exact List.forall_mem_cons.mpr
              ⟨hnew, fun l hl hm => hunseen l hl (List.mem_cons_of_mem _ hm)⟩
          · exact List.forall_mem_cons.mpr ⟨⟨hnode, rfl⟩, hholds⟩
          · exact List.forall_mem_cons.mpr ⟨hslot, hrecords⟩
          · simp only [List.length_cons, List.map_cons, List.sum_cons]
            congr 1 <;> omega

/-- The check accepts the closed deques, and no others. -/
theorem validate_eq_ok_iff : d.validate = .ok () ↔ ∃ xs, Closed d xs := by
  refine ⟨fun h => ?_, fun ⟨xs, h⟩ => h.validate_eq_ok⟩
  unfold validate at h
  split at h
  · cases h
  · rename_i hsentinel
    rw [not_or, not_not, not_not] at hsentinel
    split at h
    · cases h
    · rename_i tally hsurvey
      obtain ⟨xs, hpath, hnodup, _, hholds, hrecords, rfl⟩ := exists_of_survey hsentinel.2 hsurvey
      split at h
      · cases h
      · rename_i hcount
        split at h
        · cases h
        · rename_i hweight
          simp only [not_not, Nat.zero_add] at hcount hweight
          exact ⟨xs, hpath, hnodup, hholds, hrecords, hcount.symm, hweight.symm⟩

/-- A deque that holds a list of nodes passes its check. -/
theorem Ring.validate_eq_ok (h : Ring d xs) : d.validate = .ok () := h.closed.validate_eq_ok

end BoundedCache.Deque
