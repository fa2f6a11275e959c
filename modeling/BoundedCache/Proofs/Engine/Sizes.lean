import Mathlib.Algebra.Order.BigOperators.Group.List
import Mathlib.Algebra.Order.Group.Nat
import Mathlib.Order.Bounds.Basic
import BoundedCache.Proofs.Engine.Intact

namespace BoundedCache

structure Gauge.Sound (g : Gauge) : Prop where
  value_le : g.value ≤ g.peak
  paid : g.overdrawn = false

namespace Gauge.Sound

variable {g : Gauge} {n : Nat}

theorem add (h : g.Sound) (n : Nat) : (g.add n).Sound := ⟨Nat.le_max_right _ _, h.paid⟩

theorem sub (h : g.Sound) (hn : n ≤ g.value) : (g.sub n).Sound := by
  refine ⟨Nat.le_trans (Nat.sub_le _ _) h.value_le, ?_⟩
  have hcovered : ¬ g.value < n := Nat.not_lt.mpr hn
  simp [Gauge.sub, h.paid, hcovered]

end Gauge.Sound

namespace Deque

variable {d d' : Deque} {id : NodeId} {slot : Slot} {item : NodeId × Weight}

namespace WellFormed

theorem length_eq (h : d.WellFormed) : d.length = d.toList.length := Ring.length h

/-- Every link weighs at most what 32 bits hold. -/
theorem weightedSize_le (h : d.WellFormed) : d.weightedSize ≤ d.length * (2 ^ 32 - 1) := by
  have hweights : ∀ n ∈ d.toList.map (·.weight.toNat), n ≤ 2 ^ 32 - 1 := by
    intro n hn
    obtain ⟨l, _, rfl⟩ := List.mem_map.mp hn
    have := l.weight.toNat_lt
    omega
  have hsum := List.sum_le_card_nsmul _ _ hweights
  rw [List.length_map, Nat.nsmul_eq_mul, ← h.length_eq, ← Ring.weightedSize h] at hsum
  exact hsum

/-- The total still contains the weight of every link. -/
theorem weight_le (h : d.WellFormed) (hs : d.slotOf id = some slot) :
    (d.link slot).weight.toNat ≤ d.weightedSize := by
  obtain ⟨front, l, back, hr, rfl, rfl⟩ := h.exists_ring hs
  rw [(hr.holds l (by simp)).2, hr.weightedSize, List.map_append, List.map_cons, List.sum_append,
    List.sum_cons]
  omega

theorem length_pos (h : d.WellFormed) (hs : d.slotOf id = some slot) : 0 < d.length := by
  obtain ⟨front, l, back, hr, _⟩ := h.exists_ring hs
  rw [hr.length, List.length_append, List.length_cons]
  omega

theorem inArena (h : d.WellFormed) (hs : d.slotOf id = some slot) : d.InArena slot := by
  obtain ⟨front, l, back, hr, _, rfl⟩ := h.exists_ring hs
  exact hr.inArena_of_mem (by simp)

/-- The node that is popped was linked, and is unlinked. -/
theorem unlink_of_popFront? (h : d.WellFormed) (hp : d.popFront? = some (id, d')) :
    ∃ slot w, d.slotOf id = some slot ∧ d.unlink slot = some ((id, w), d') := by
  cases hx : d.toList with
  | nil =>
    have hr : d.Ring [] := hx ▸ h
    exact absurd (hp.symm.trans hr.popFront?_nil) (by simp)
  | cons l rest =>
    have hr : d.Ring ([] ++ l :: rest) := hx ▸ h
    obtain ⟨d1, hd, _⟩ := hr.unlink
    have hpop : d.popFront? = some (l.node, d1) := by
      simp [Deque.popFront?, Ring.head?_cons hr, hd]
    cases hp.symm.trans hpop
    exact ⟨l.slot, l.weight, hr.records l (by simp), hd⟩

end WellFormed

/-- A deque whose gauges bear out what is linked: no sum took more than there was, and the total was
never higher than the most nodes that were ever linked at once can weigh. -/
structure Measured (d : Deque) : Prop where
  wellFormed : d.WellFormed
  linked : d.linked.Sound
  total : d.total.Sound
  peak_le : d.total.peak ≤ d.linked.peak * (2 ^ 32 - 1)

theorem measured_empty : Measured {} where
  wellFormed := wellFormed_empty
  linked := ⟨Nat.le_refl 0, rfl⟩
  total := ⟨Nat.le_refl 0, rfl⟩
  peak_le := Nat.zero_le _

namespace Measured

/-- What is linked now bounds the total now, and the bound never goes down. -/
theorem of_gauges (h : d.Measured) (hd : d'.WellFormed) (hlinked : d'.linked.Sound)
    (htotal : d'.total.Sound) (hmost : d.linked.peak ≤ d'.linked.peak)
    (hpeak : d'.total.peak ≤ max d.total.peak d'.weightedSize) : d'.Measured := by
  refine ⟨hd, hlinked, htotal, ?_⟩
  have hbefore : d.total.peak ≤ d'.linked.peak * (2 ^ 32 - 1) :=
    Nat.le_trans h.peak_le (Nat.mul_le_mul_right _ hmost)
  have hnow : d'.weightedSize ≤ d'.linked.peak * (2 ^ 32 - 1) :=
    Nat.le_trans hd.weightedSize_le (Nat.mul_le_mul_right _ hlinked.value_le)
  exact Nat.le_trans hpeak (Nat.max_le.mpr ⟨hbefore, hnow⟩)

theorem pushBack (h : d.Measured) (hs : d.slotOf id = none) (w : Weight) :
    (d.pushBack id w).2.Measured := by
  obtain ⟨hlinked, htotal⟩ := d.gauges_pushBack id w
  refine h.of_gauges (h.wellFormed.pushBack hs w).1 ?_ ?_ ?_ ?_
  · exact hlinked ▸ h.linked.add 1
  · exact htotal ▸ h.total.add w.toNat
  · rw [hlinked]
    exact Nat.le_max_left _ _
  · rw [weightedSize, htotal]
    exact Nat.le_refl _

theorem unlink (h : d.Measured) (hs : d.slotOf id = some slot)
    (hu : d.unlink slot = some (item, d')) : d'.Measured := by
  obtain ⟨hlinked, htotal⟩ := gauges_unlink hu
  obtain ⟨_, d1, _, hd, hwf, _⟩ := h.wellFormed.unlink hs
  cases hu.symm.trans hd
  refine h.of_gauges hwf ?_ ?_ ?_ ?_
  · exact hlinked ▸ h.linked.sub (h.wellFormed.length_pos hs)
  · exact htotal ▸ h.total.sub (h.wellFormed.weight_le hs)
  · rw [hlinked]
    exact Nat.le_refl _
  · rw [htotal]
    exact Nat.le_max_left _ _

theorem moveToBack (h : d.Measured) (hs : d.slotOf id = some slot) :
    (d.moveToBack slot).Measured := by
  obtain ⟨hlinked, htotal⟩ := d.gauges_moveToBack slot
  refine ⟨(h.wellFormed.moveToBack hs).1, ?_, ?_, ?_⟩
  · exact hlinked ▸ h.linked
  · exact htotal ▸ h.total
  · rw [hlinked, htotal]
    exact h.peak_le

/-- The old weight goes before the new one comes. -/
theorem setWeight (h : d.Measured) (hs : d.slotOf id = some slot) (w : Weight) :
    (d.setWeight slot w).Measured := by
  obtain ⟨hlinked, htotal⟩ := gauges_setWeight (h.wellFormed.inArena hs) w
  refine h.of_gauges (h.wellFormed.setWeight hs w).1 ?_ ?_ ?_ ?_
  · exact hlinked ▸ h.linked
  · exact htotal ▸ (h.total.sub (h.wellFormed.weight_le hs)).add w.toNat
  · rw [hlinked]
  · rw [weightedSize, htotal]
    exact Nat.le_refl _

theorem served (h : d.Measured) (hserved : d.Served id d') : d'.Measured := by
  cases hserved with
  | idle => exact h
  | link unlinked w => exact h.pushBack unlinked w
  | move linked => exact h.moveToBack linked
  | weigh linked w => exact h.setWeight linked w
  | renew linked w =>
    have hslot := ((h.wellFormed.setWeight linked w).2.2 id).trans linked
    exact (h.setWeight linked w).moveToBack hslot
  | unlink linked taken => exact h.unlink linked taken

end Measured

end Deque

namespace Engine

variable {e e' : Engine}

structure Measured (e : Engine) : Prop where
  deque : e.deque.Measured
  store : e.store.Counted
  mapped : e.store.mapped.Sound

theorem measured_of_empty (hd : e.deque = {}) (hs : e.store = {}) : e.Measured where
  deque := hd ▸ Deque.measured_empty
  store := hs ▸ Store.Counted.empty
  mapped := hs ▸ ⟨Nat.le_refl 0, rfl⟩

theorem Measured.change (h : e.Measured) (hc : Change e e') : e'.Measured := by
  cases hc with
  | rebuffer | rewrite => exact ⟨h.deque, h.store, h.mapped⟩
  | apply ev =>
    have hstore : (e.apply ev).store = e.store := store_apply e ev
    refine ⟨h.deque.served (served_apply h.deque.wellFormed ev), ?_, ?_⟩
    · exact hstore ▸ h.store
    · exact hstore ▸ h.mapped
  | @insert key fresh s store =>
    have hmapped : s.mapped = e.store.mapped.add 1 := Store.mapped_insertIfAbsent store
    exact ⟨h.deque, h.store.insertIfAbsent store, hmapped ▸ h.mapped.add 1⟩
  | @supersede key id fresh s store =>
    have hmapped : s.mapped = e.store.mapped := by rw [(Store.replaceIfMatch_eq_some store).2]
    exact ⟨h.deque, h.store.replaceIfMatch store, hmapped ▸ h.mapped⟩
  | @unmap key id s store =>
    have hmapped : s.mapped = e.store.mapped.sub 1 := by
      rw [(Store.removeIfMatch_eq_some store).2]
    have hcounted : 1 ≤ e.store.size := h.store.size_removeIfMatch store ▸ Nat.le_add_left 1 _
    exact ⟨h.deque, h.store.removeIfMatch store, hmapped ▸ h.mapped.sub hcounted⟩
  | pop hp =>
    obtain ⟨_, _, hs, hu⟩ := h.deque.wellFormed.unlink_of_popFront? hp
    exact ⟨h.deque.unlink hs hu, h.store, h.mapped⟩
  | weigh hs w => exact ⟨h.deque.setWeight hs w, h.store, h.mapped⟩

theorem Measured.changes (h : e.Measured) (hc : Changes e e') : e'.Measured := by
  induction hc with
  | refl => exact h
  | tail _ hstep ih => exact ih.change hstep

/-- A change links one node, unlinks one, or neither. -/
theorem Change.linked (h : Change e e') (hd : e.deque.WellFormed) :
    e'.deque.linked = e.deque.linked ∨ e'.deque.linked = e.deque.linked.add 1 ∨
      e'.deque.linked = e.deque.linked.sub 1 := by
  cases h with
  | rebuffer | rewrite | insert | supersede | unmap => exact Or.inl rfl
  | apply ev =>
    have hserved := served_apply hd ev
    generalize (e.apply ev).deque = d at hserved
    cases hserved with
    | idle => exact Or.inl rfl
    | @link _ w => exact Or.inr (Or.inl (Deque.gauges_pushBack _ _ w).1)
    | @move slot _ => exact Or.inl (Deque.gauges_moveToBack _ slot).1
    | weigh linked w => exact Or.inl (Deque.gauges_setWeight (hd.inArena linked) w).1
    | @renew slot linked w =>
      have hmoved := (Deque.gauges_moveToBack (e.deque.setWeight slot w) slot).1
      exact Or.inl (hmoved.trans (Deque.gauges_setWeight (hd.inArena linked) w).1)
    | unlink _ taken => exact Or.inr (Or.inr (Deque.gauges_unlink taken).1)
  | pop hp =>
    obtain ⟨_, _, _, hu⟩ := hd.unlink_of_popFront? hp
    exact Or.inr (Or.inr (Deque.gauges_unlink hu).1)
  | weigh linked w => exact Or.inl (Deque.gauges_setWeight (hd.inArena linked) w).1

theorem Change.peak_le (h : Change e e') (hd : e.deque.WellFormed) :
    e.deque.linked.peak ≤ e'.deque.linked.peak := by
  rcases h.linked hd with hsame | hadd | hsub
  · rw [hsame]
  · rw [hadd]
    exact Nat.le_max_left _ _
  · rw [hsub, Gauge.peak_sub]

theorem Changes.peak_le (h : Changes e e') (hd : e.deque.WellFormed) :
    e.deque.linked.peak ≤ e'.deque.linked.peak := by
  induction h with
  | refl => exact Nat.le_refl _
  | tail hbefore hstep ih => exact Nat.le_trans ih (hstep.peak_le (Changes.wellFormed hbefore hd))

/-- The peak is not only a bound: so many nodes have been linked at once. -/
theorem Changes.exists_peak (h : Changes e e') (hd : e.deque.WellFormed)
    (hpeak : e.deque.toList.length = e.deque.linked.peak) :
    ∃ m, Changes e m ∧ Changes m e' ∧ m.deque.toList.length = e'.deque.linked.peak := by
  induction h with
  | refl => exact ⟨e, .refl, .refl, hpeak⟩
  | @tail mid last hbefore hstep ih =>
    obtain ⟨m, hm, hlater, hmost⟩ := ih
    have hmid := Changes.wellFormed hbefore hd
    have hstill (hsame : last.deque.linked.peak = mid.deque.linked.peak) :
        ∃ m, Changes e m ∧ Changes m last ∧ m.deque.toList.length = last.deque.linked.peak :=
      ⟨m, hm, hlater.tail hstep, hmost.trans hsame.symm⟩
    rcases hstep.linked hmid with hsame | hadd | hsub
    · exact hstill (congrArg Gauge.peak hsame)
    · rcases Nat.le_total (mid.deque.linked.value + 1) mid.deque.linked.peak with hlow | hhigh
      · exact hstill ((congrArg Gauge.peak hadd).trans (Nat.max_eq_left hlow))
      · refine ⟨last, hbefore.tail hstep, .refl, ?_⟩
        rw [← (hstep.wellFormed hmid).length_eq, Deque.length, hadd]
        exact (Nat.max_eq_right hhigh).symm
    · exact hstill (by rw [hsub, Gauge.peak_sub])

/-- The peak is the most nodes that are linked at any moment in between. -/
theorem Changes.isGreatest_peak (h : Changes e e') (he : e.Measured)
    (hpeak : e.deque.toList.length = e.deque.linked.peak) :
    IsGreatest {n | ∃ m, Changes e m ∧ Changes m e' ∧ m.deque.toList.length = n}
      e'.deque.linked.peak := by
  refine ⟨h.exists_peak he.deque.wellFormed hpeak, ?_⟩
  rintro n ⟨m, hm, hlater, rfl⟩
  have hmid := he.changes hm
  rw [← hmid.deque.wellFormed.length_eq]
  exact Nat.le_trans hmid.deque.linked.value_le (hlater.peak_le hmid.deque.wellFormed)

end Engine

end BoundedCache
