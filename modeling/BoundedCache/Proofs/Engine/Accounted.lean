import BoundedCache.Proofs.Buffers
import BoundedCache.Proofs.Deque.Weights
import BoundedCache.Proofs.Engine.Paired

namespace BoundedCache.Engine

/-- What store and deque may still lack is on its way in `pending`.

* `adds`: a live node that is not linked.
* `updates`: a linked live node whose link has another weight.
* `removes`: a linked retired node. -/
structure Accounted (pending : List Event) (e : Engine) : Prop extends Paired e where
  deque : e.deque.WellFormed
  named : ∀ ev ∈ pending, ev.node < e.pool.next
  linked : ∀ id w, e.deque.weightOf? id = some w → id < e.pool.next
  adds : ∀ id held, e.pool.held id = some held → e.deque.weightOf? id = none →
    ⟨.add, id⟩ ∈ pending
  updates : ∀ id held w, e.pool.held id = some held → e.deque.weightOf? id = some w →
    held.weight = w ∨ ⟨.update, id⟩ ∈ pending
  removes : ∀ id w, e.pool.held id = none → e.deque.weightOf? id = some w →
    ⟨.remove, id⟩ ∈ pending
  retired : ∀ id, ⟨.remove, id⟩ ∈ pending → e.pool.held id = none

namespace Accounted

variable {e : Engine} {pending other : List Event} {ev : Event} {id : NodeId} {key : Key}
  {last fresh : Held} {p : Pool} {s : Store} {d : Deque} {slot : Slot} {w : Weight}

theorem empty (room level thread : Nat) (touch : Bool) :
    Accounted [] { buffers := Buffers.ofLevel level room thread, touchOnUpdate := touch } := by
  have hheld (id : NodeId) : Pool.held {} id = none := by simp [Pool.held, Pool.node?]
  have hweight (id : NodeId) : Deque.weightOf? {} id = none := by
    simp [Deque.weightOf?, Deque.slotOf]
  constructor
  · exact ⟨.empty _, by simp [Store.get?, hheld]⟩
  · exact Deque.wellFormed_empty
  all_goals simp [hheld, hweight]

/-- Only the set of pending events matters. -/
theorem congr (h : Accounted pending e) (hm : ∀ ev, ev ∈ other ↔ ev ∈ pending) :
    Accounted other e := by
  constructor
  · exact h.toPaired
  · exact h.deque
  · exact fun ev hev => h.named ev ((hm ev).mp hev)
  · exact h.linked
  · exact fun id held hh hw => (hm _).mpr (h.adds id held hh hw)
  · exact fun id held w hh hw => (h.updates id held w hh hw).imp_right (hm _).mpr
  · exact fun id w hh hw => (hm _).mpr (h.removes id w hh hw)
  · exact fun id hid => h.retired id ((hm _).mp hid)

/-- Buffers play no part. -/
theorem of_eq {e' : Engine} (h : Accounted pending e) (hp : e'.pool = e.pool)
    (hs : e'.store = e.store) (hd : e'.deque = e.deque) : Accounted pending e' := by
  obtain ⟨p, s, b, d, touch⟩ := e'
  subst hp hs hd
  exact ⟨h.toPaired.of_eq rfl rfl, h.deque, h.named, h.linked, h.adds, h.updates, h.removes,
    h.retired⟩

/-- One more event about an existing node does no harm, unless it wrongly tells of a removal. -/
theorem cons (h : Accounted pending e) (hn : ev.node < e.pool.next)
    (hr : ev.kind = .remove → e.pool.held ev.node = none) : Accounted (ev :: pending) e := by
  constructor
  · exact h.toPaired
  · exact h.deque
  · exact List.forall_mem_cons.mpr ⟨hn, h.named⟩
  · exact h.linked
  · exact fun id held hh hw => List.mem_cons_of_mem _ (h.adds id held hh hw)
  · exact fun id held w hh hw => (h.updates id held w hh hw).imp_right (List.mem_cons_of_mem _)
  · exact fun id w hh hw => List.mem_cons_of_mem _ (h.removes id w hh hw)
  · intro id hid
    rcases List.mem_cons.mp hid with he | hid
    · subst he
      exact hr rfl
    · exact h.retired id hid

/-- An event that covers nothing can go. -/
theorem discharge (h : Accounted (ev :: pending) e)
    (hadd : ev.kind = .add → e.pool.held ev.node = none ∨ e.deque.weightOf? ev.node ≠ none)
    (hupdate : ev.kind = .update → ∀ held w, e.pool.held ev.node = some held →
      e.deque.weightOf? ev.node = some w → held.weight = w)
    (hremove : ev.kind = .remove → e.deque.weightOf? ev.node = none) : Accounted pending e := by
  obtain ⟨kind, node⟩ := ev
  constructor
  · exact h.toPaired
  · exact h.deque
  · exact fun ev hev => h.named ev (List.mem_cons_of_mem _ hev)
  · exact h.linked
  · intro id held hh hw
    rcases List.mem_cons.mp (h.adds id held hh hw) with he | hid
    · cases he
      rcases hadd rfl with hn | hn
      · exact absurd (hh.symm.trans hn) (by simp)
      · exact absurd hw hn
    · exact hid
  · intro id held w hh hw
    rcases h.updates id held w hh hw with heq | hid
    · exact Or.inl heq
    · rcases List.mem_cons.mp hid with he | hid
      · cases he
        exact Or.inl (hupdate rfl held w hh hw)
      · exact Or.inr hid
  · intro id w hh hw
    rcases List.mem_cons.mp (h.removes id w hh hw) with he | hid
    · cases he
      exact absurd (hw.symm.trans (hremove rfl)) (by simp)
    · exact hid
  · exact fun id hid => h.retired id (List.mem_cons_of_mem _ hid)

/-- A deque with the same links covers the same. -/
theorem relink (h : Accounted pending e) (hd : d.WellFormed)
    (hw : ∀ id, d.weightOf? id = e.deque.weightOf? id) :
    Accounted pending { e with deque := d } := by
  constructor
  · exact h.toPaired.of_eq rfl rfl
  · exact hd
  · exact h.named
  · simpa [hw] using h.linked
  · simpa [hw] using h.adds
  · simpa [hw] using h.updates
  · simpa [hw] using h.removes
  · exact h.retired

/-- A link that gets the weight of its live node needs no cover. -/
theorem weigh (h : Accounted pending e) (hd : d.WellFormed) (hl : e.pool.held id = some last)
    (hw : ∀ other, d.weightOf? other = if other = id then some last.weight
      else e.deque.weightOf? other) : Accounted pending { e with deque := d } := by
  constructor
  · exact h.toPaired.of_eq rfl rfl
  · exact hd
  · exact h.named
  · intro other w ho
    simp only [hw] at ho
    split at ho
    · rename_i he
      exact he ▸ Pool.lt_next_of_held hl
    · exact h.linked other w ho
  · intro other held hh ho
    simp only [hw] at ho
    split at ho
    · cases ho
    · exact h.adds other held hh ho
  · intro other held w hh ho
    simp only [hw] at ho
    split at ho
    · rename_i he
      subst he
      rw [hl] at hh
      cases hh
      cases ho
      exact Or.inl rfl
    · exact h.updates other held w hh ho
  · intro other w hh ho
    simp only [hw] at ho
    split at ho
    · rename_i he
      subst he
      exact absurd (hl.symm.trans hh) (by simp)
    · exact h.removes other w hh ho
  · exact h.retired

/-- A retired node may be unlinked. -/
theorem unlink (h : Accounted pending e) (hd : d.WellFormed) (hn : e.pool.held id = none)
    (hw : ∀ other, d.weightOf? other = if other = id then none else e.deque.weightOf? other) :
    Accounted pending { e with deque := d } := by
  have sub (other : NodeId) (w : Weight) (ho : d.weightOf? other = some w) :
      e.deque.weightOf? other = some w := by
    rw [hw] at ho
    split at ho
    · cases ho
    · exact ho
  constructor
  · exact h.toPaired.of_eq rfl rfl
  · exact hd
  · exact h.named
  · exact fun other w ho => h.linked other w (sub other w ho)
  · intro other held hh ho
    simp only [hw] at ho
    split at ho
    · rename_i he
      subst he
      exact absurd (hh.symm.trans hn) (by simp)
    · exact h.adds other held hh ho
  · exact fun other held w hh ho => h.updates other held w hh (sub other w ho)
  · exact fun other w hh ho => h.removes other w hh (sub other w ho)
  · exact h.retired

/-- The replay of an event settles what the event covers. -/
theorem apply (h : Accounted (ev :: pending) e) : Accounted pending (e.apply ev) := by
  obtain ⟨kind, id⟩ := ev
  unfold Engine.apply
  cases hs : e.deque.slotOf id with
  | none =>
    have hw : e.deque.weightOf? id = none := Deque.weightOf?_eq_none_iff.mpr hs
    cases hh : e.pool.held id with
    | none => cases kind <;> exact h.discharge (by simp [hh]) (by simp [hw]) (by simp [hw])
    | some held =>
      cases kind with
      | add =>
        obtain ⟨hd, hlink⟩ := h.deque.pushBack hs held.weight
        exact (h.weigh hd hh hlink).discharge (by simp [hlink]) (by simp) (by simp)
      | read | update | remove =>
        exact h.discharge (by simp) (by simp [hw]) (by simp [hw])
  | some slot =>
    have hw : e.deque.weightOf? id ≠ none := by simp [Deque.weightOf?_eq_none_iff, hs]
    cases kind with
    | read =>
      have hsame := h.discharge (by simp) (by simp) (by simp)
      cases hh : e.pool.held id with
      | none => exact hsame
      | some held =>
        obtain ⟨hd, hlink⟩ := h.deque.moveToBack hs
        exact hsame.relink hd hlink
    | add => cases hh : e.pool.held id <;> exact h.discharge (by simp [hw]) (by simp) (by simp)
    | update =>
      cases hh : e.pool.held id with
      | none => exact h.discharge (by simp) (by simp [hh]) (by simp)
      | some held =>
        obtain ⟨hd, hlink, hslot⟩ := h.deque.setWeight hs held.weight
        have hset := (h.weigh hd hh hlink).discharge (by simp) (by simp [hh, hlink]) (by simp)
        dsimp only
        split
        · obtain ⟨hd', hlink'⟩ := hd.moveToBack ((hslot id).trans hs)
          exact hset.relink hd' hlink'
        · exact hset
    | remove =>
      have hn : e.pool.held id = none := h.retired id (by simp)
      obtain ⟨w, d, _, hd, hwf, hlink⟩ := h.deque.unlink hs
      simp only [hd]
      exact (h.unlink hwf hn hlink).discharge (by simp) (by simp) (by simp [hlink])

theorem applyAll {events : List Event} (h : Accounted (events ++ pending) e) :
    Accounted pending (e.applyAll events) := by
  induction events generalizing e with
  | nil => exact h
  | cons ev events ih => exact ih h.apply

/-- With all that is pending replayed, nothing is left to cover. -/
theorem settle (h : Accounted pending e) : Accounted [] (e.applyAll pending) :=
  applyAll (by rwa [List.append_nil])

/-- A replay settles what the buffered events cover. -/
theorem replay (h : Accounted (e.buffers.events ++ pending) e) (hs : e.buffers.Sound) :
    Accounted pending e.replay.2 := by
  rw [replay_eq e hs]
  exact h.applyAll.of_eq rfl rfl rfl

/-- The new value of a node is covered by its update. -/
theorem replace (h : Accounted pending e) (hq : e.pool.Rewrites p id last (some fresh)) :
    Accounted (⟨.update, id⟩ :: pending) { e with pool := p } := by
  have hid := Pool.lt_next_of_held hq.was
  have alive (other : NodeId) : (p.held other).isSome = (e.pool.held other).isSome := by
    rw [hq.held]
    split
    · rename_i he
      simp [he, hq.was]
    · rfl
  have dead (other : NodeId) : p.held other = none ↔ e.pool.held other = none := by
    rw [← Option.isNone_iff_eq_none, ← Option.isNone_iff_eq_none, ← Option.not_isSome,
      ← Option.not_isSome, alive]
  constructor
  · exact h.toPaired.replace hq
  · exact h.deque
  · rw [hq.size]
    exact List.forall_mem_cons.mpr ⟨hid, h.named⟩
  · rw [hq.size]
    exact h.linked
  · intro other held hh hw
    obtain ⟨old, ho⟩ := Option.isSome_iff_exists.mp ((alive other).symm.trans (by simp [hh]))
    exact List.mem_cons_of_mem _ (h.adds other old ho hw)
  · intro other held w hh hw
    rw [hq.held] at hh
    split at hh
    · rename_i he
      subst he
      exact Or.inr (by simp)
    · exact (h.updates other held w hh hw).imp_right (List.mem_cons_of_mem _)
  · exact fun other w hh hw => List.mem_cons_of_mem _ (h.removes other w ((dead other).mp hh) hw)
  · intro other ho
    rcases List.mem_cons.mp ho with he | ho
    · cases he
    · exact (dead other).mpr (h.retired other ho)

/-- A new node is covered by its add. -/
theorem insert (h : Accounted pending e) (ht : e.store.insertIfAbsent key e.pool.next = .ok s) :
    Accounted (⟨.add, e.pool.next⟩ :: pending)
      { e with pool := e.pool.add key fresh, store := s } := by
  have hunlinked : e.deque.weightOf? e.pool.next = none := by
    cases hw : e.deque.weightOf? e.pool.next with
    | none => rfl
    | some w => exact absurd (h.linked _ w hw) (Nat.lt_irrefl _)
  constructor
  · exact h.toPaired.insert ht
  · exact h.deque
  · simp only [Pool.next_add]
    refine List.forall_mem_cons.mpr ⟨Nat.lt_succ_self _, fun ev hev => ?_⟩
    exact Nat.lt_succ_of_lt (h.named ev hev)
  · intro id w hw
    simp only [Pool.next_add]
    exact Nat.lt_succ_of_lt (h.linked id w hw)
  · intro id held hh hw
    simp only [Pool.held_add] at hh
    split at hh
    · rename_i hid
      rw [hid]
      simp
    · exact List.mem_cons_of_mem _ (h.adds id held hh hw)
  · intro id held w hh hw
    simp only [Pool.held_add] at hh
    split at hh
    · rename_i hid
      rw [hid] at hw
      exact absurd (hunlinked.symm.trans hw) (by simp)
    · exact (h.updates id held w hh hw).imp_right (List.mem_cons_of_mem _)
  · intro id w hh hw
    simp only [Pool.held_add] at hh
    split at hh
    · cases hh
    · exact List.mem_cons_of_mem _ (h.removes id w hh hw)
  · intro id hid
    rcases List.mem_cons.mp hid with he | hid
    · cases he
    · have hlt := h.named _ hid
      simp only [Pool.held_add, if_neg (Nat.ne_of_lt hlt)]
      exact h.retired id hid

/-- A node that is retired and unmapped is covered by its removal. -/
theorem retire (h : Accounted pending e) (hq : e.pool.Rewrites p id last none)
    (ht : e.store.removeIfMatch (e.pool.key id) id = some s) :
    Accounted (⟨.remove, id⟩ :: pending) { e with pool := p, store := s } := by
  have hid := Pool.lt_next_of_held hq.was
  constructor
  · exact h.toPaired.retire hq ht
  · exact h.deque
  · rw [hq.size]
    exact List.forall_mem_cons.mpr ⟨hid, h.named⟩
  · rw [hq.size]
    exact h.linked
  · intro other held hh hw
    rw [hq.held] at hh
    split at hh
    · cases hh
    · exact List.mem_cons_of_mem _ (h.adds other held hh hw)
  · intro other held w hh hw
    rw [hq.held] at hh
    split at hh
    · cases hh
    · exact (h.updates other held w hh hw).imp_right (List.mem_cons_of_mem _)
  · intro other w hh hw
    rw [hq.held] at hh
    split at hh
    · rename_i he
      rw [he]
      simp
    · exact List.mem_cons_of_mem _ (h.removes other w hh hw)
  · intro other ho
    rw [hq.held]
    split
    · rfl
    · rename_i hne
      rcases List.mem_cons.mp ho with he | ho
      · cases he
        exact absurd rfl hne
      · exact h.retired other ho

/-- A linked node that is taken out and expelled leaves nothing to cover. -/
theorem expel (h : Accounted pending e) (hd : d.WellFormed)
    (hw : ∀ other, d.weightOf? other = if other = id then none else e.deque.weightOf? other) :
    match ({ e with deque := d } : Engine).expel id with
    | none => Accounted pending { e with deque := d }
    | some (_, e') => Accounted pending e' := by
  unfold Engine.expel
  cases hr : e.pool.retire id with
  | none => exact h.unlink hd (Pool.retire_eq_none_iff.mp hr) hw
  | some result =>
    obtain ⟨last, p⟩ := result
    have hq := Pool.rewrites_of_retire hr
    obtain ⟨s, ht⟩ := h.exists_removeIfMatch hq.was
    have hretired := (h.retire hq ht).unlink hd (by simp [hq.held]) hw
    have hdone := hretired.discharge (by simp) (by simp) (by simp [hw])
    simpa [Engine.unmap, hq.key, ht] using hdone

/-- An eviction leaves nothing to cover, and with enough rounds it frees enough weight. -/
theorem evictUpTo (h : Accounted pending e) (capacity n : Nat) :
    Accounted pending (Engine.evictUpTo capacity n e).2 ∧
      (e.deque.toList.length ≤ n →
        (Engine.evictUpTo capacity n e).2.deque.weightedSize ≤ capacity) := by
  induction n generalizing e with
  | zero =>
    refine ⟨h, fun hn => ?_⟩
    have hx : e.deque.toList = [] := List.length_eq_zero_iff.mp (Nat.le_zero.mp hn)
    have hsize := h.deque.weightedSize
    rw [hx] at hsize
    simp [Engine.evictUpTo, hsize]
  | succ n ih =>
    unfold Engine.evictUpTo
    split
    · exact ⟨h, fun _ => ‹_›⟩
    · rcases h.deque.popFront? with ⟨hp, _, hsize⟩ | ⟨l, rest, d, hx, hp, hd, hrest, hw⟩
      · simp only [hp]
        exact ⟨h, fun _ => by omega⟩
      · have hexpel := h.expel hd hw
        have hlength (e' : Engine) (he : e'.deque = d) (hn : e.deque.toList.length ≤ n + 1) :
            e'.deque.toList.length ≤ n := by
          rw [he, hrest]
          simpa [hx] using hn
        simp only [hp]
        cases hr : ({ e with deque := d } : Engine).expel l.node with
        | none =>
          rw [hr] at hexpel
          obtain ⟨hacc, hsize⟩ := ih hexpel
          exact ⟨hacc, fun hn => hsize (hlength _ rfl hn)⟩
        | some result =>
          rw [hr] at hexpel
          obtain ⟨hacc, hsize⟩ := ih hexpel
          exact ⟨hacc, fun hn => hsize (hlength _ (deque_expel hr) hn)⟩

theorem evict (h : Accounted pending e) (capacity : Nat) :
    Accounted pending (e.evict capacity).2 ∧ (e.evict capacity).2.deque.weightedSize ≤ capacity := by
  obtain ⟨hacc, hsize⟩ := h.evictUpTo capacity e.deque.links.size
  exact ⟨hacc, hsize (Nat.le_of_lt h.deque.length_lt_size)⟩

end Accounted

end BoundedCache.Engine
