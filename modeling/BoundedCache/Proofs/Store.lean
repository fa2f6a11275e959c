import BoundedCache.Store
import BoundedCache.Proofs.Pool

namespace BoundedCache

namespace Assoc

variable {α β : Type} [DecidableEq α] {key : α} {item : β} {pairs : List (α × β)}

theorem mem_drop {p : α × β} : p ∈ drop key pairs ↔ p ∈ pairs ∧ p.1 ≠ key := by
  rw [drop, List.mem_filter, decide_eq_true_eq]

theorem nodup_drop (h : (pairs.map (·.1)).Nodup) : ((drop key pairs).map (·.1)).Nodup :=
  h.sublist (List.filter_sublist.map _)

theorem nodup_put (h : (pairs.map (·.1)).Nodup) : ((put key item pairs).map (·.1)).Nodup := by
  rw [put, List.map_cons, List.nodup_cons]
  refine ⟨fun hm => ?_, nodup_drop h⟩
  obtain ⟨p, hp, he⟩ := List.mem_map.mp hm
  exact (mem_drop.mp hp).2 he

/-- With distinct keys, what a key is mapped to can be read off the list. -/
theorem lookup_eq_some_iff (h : (pairs.map (·.1)).Nodup) :
    pairs.lookup key = some item ↔ (key, item) ∈ pairs := by
  induction pairs with
  | nil => simp
  | cons p rest ih =>
    obtain ⟨hp, hrest⟩ := List.nodup_cons.mp h
    obtain ⟨k, i⟩ := p
    rw [lookup_cons, List.mem_cons]
    by_cases he : key = k
    · subst he
      have hnot : (key, item) ∉ rest := fun hm => hp (List.mem_map_of_mem (f := (·.1)) hm)
      simp [hnot, eq_comm]
    · simp [he, ih hrest]

theorem drop_eq_self (h : pairs.lookup key = none) : drop key pairs = pairs := by
  apply List.filter_eq_self.mpr
  intro p hp
  have hne := List.lookup_eq_none_iff.mp h p hp
  have : p.1 ≠ key := fun he => by simp [he] at hne
  exact decide_eq_true this

/-- Dropping a mapped key takes out one pair. -/
theorem perm_drop (hd : (pairs.map (·.1)).Nodup) (h : pairs.lookup key = some item) :
    pairs.Perm ((key, item) :: drop key pairs) := by
  induction pairs with
  | nil => simp at h
  | cons p rest ih =>
    obtain ⟨hp, hrest⟩ := List.nodup_cons.mp hd
    obtain ⟨k, i⟩ := p
    rw [lookup_cons] at h
    by_cases he : key = k
    · subst he
      have hi : i = item := by simpa using h
      have hnone : rest.lookup key = none := by
        apply List.lookup_eq_none_iff.mpr
        intro q hq
        have : key ≠ q.1 := fun hk => hp (List.mem_map.mpr ⟨q, hq, hk.symm⟩)
        simpa using this
      have hdrop : drop key ((key, i) :: rest) = rest := by
        rw [drop, List.filter_cons_of_neg (by simp), ← drop, drop_eq_self hnone]
      rw [hdrop, hi]
    · have hdrop : drop key ((k, i) :: rest) = (k, i) :: drop key rest := by
        rw [drop, List.filter_cons_of_pos (by simpa using Ne.symm he), ← drop]
      rw [hdrop]
      have := ih hrest (by simpa [he] using h)
      exact (this.cons (k, i)).trans (List.Perm.swap _ _ _)

end Assoc

namespace Store

variable {s t : Store} {p q : Pool} {key k : Key} {id other : NodeId} {fresh : Held}

/-- A map in which every node is stored under its own key. -/
structure Sound (s : Store) (p : Pool) : Prop where
  nodup : (s.entries.map (·.1)).Nodup
  size : s.size = s.entries.length
  keyed : ∀ k id, s.get? k = some id → p.key id = k
  made : ∀ k id, s.get? k = some id → id < p.next

structure Counted (s : Store) : Prop where
  nodup : (s.entries.map (·.1)).Nodup
  size : s.size = s.entries.length

theorem Counted.empty : Counted {} := ⟨by simp, rfl⟩

theorem Sound.counted (h : s.Sound p) : s.Counted := ⟨h.nodup, h.size⟩

theorem Sound.empty (p : Pool) : Sound {} p where
  nodup := Counted.empty.nodup
  size := Counted.empty.size
  keyed := by simp [get?]
  made := by simp [get?]

/-- Nodes that were made keep their keys. -/
theorem Sound.grows (h : s.Sound p) (hq : p.Grows q) : s.Sound q where
  nodup := h.nodup
  size := h.size
  keyed k id hk := (hq.key_eq (h.made k id hk)).trans (h.keyed k id hk)
  made k id hk := Nat.lt_of_lt_of_le (h.made k id hk) hq.next_le

theorem Counted.mem_iff (h : s.Counted) : (k, id) ∈ s.entries ↔ s.get? k = some id :=
  (Assoc.lookup_eq_some_iff h.nodup).symm

theorem Sound.mem_iff (h : s.Sound p) : (k, id) ∈ s.entries ↔ s.get? k = some id :=
  h.counted.mem_iff

/-- A node is mapped by no other key than its own. -/
theorem Sound.eq_key (h : s.Sound p) (hk : s.get? k = some id) : s.get? (p.key id) = some id := by
  rw [h.keyed k id hk]
  exact hk

theorem Sound.mem_nodes_iff (h : s.Sound p) : id ∈ s.nodes ↔ s.get? (p.key id) = some id := by
  constructor
  · intro hm
    obtain ⟨m, hentry, rfl⟩ := List.mem_map.mp hm
    exact h.eq_key (h.mem_iff.mp hentry)
  · exact fun hk => List.mem_map.mpr ⟨_, h.mem_iff.mpr hk, rfl⟩

/-- No node is mapped twice. -/
theorem Sound.nodup_nodes (h : s.Sound p) : s.nodes.Nodup := by
  have hkeys : s.nodes.map p.key = s.entries.map (·.1) := by
    rw [nodes, List.map_map]
    exact List.map_congr_left fun m hm => h.keyed m.1 m.2 (h.mem_iff.mp hm)
  have hnodup : (s.nodes.map p.key).Nodup := hkeys ▸ h.nodup
  exact List.Pairwise.of_map _ (fun _ _ hne he => hne (congrArg _ he)) hnodup

theorem Sound.entries_eq_nil (h : s.Sound p) (hk : ∀ key, s.get? key = none) : s.entries = [] :=
  List.eq_nil_iff_forall_not_mem.mpr fun m hm =>
    absurd ((h.mem_iff.mp hm).symm.trans (hk m.1)) (by simp)

theorem insertIfAbsent_eq_ok (h : s.insertIfAbsent key id = .ok t) :
    s.get? key = none ∧ t.entries = (key, id) :: s.entries ∧ t.size = s.size + 1 := by
  unfold insertIfAbsent at h
  split at h
  · cases h
  · rename_i hk
    cases h
    exact ⟨hk, by simp [Assoc.put, Assoc.drop_eq_self hk], rfl⟩

theorem insertIfAbsent_of_unmapped (h : s.get? key = none) (id : NodeId) :
    s.insertIfAbsent key id = .ok ⟨Assoc.put key id s.entries, s.mapped.add 1⟩ := by
  simp [insertIfAbsent, h]

theorem mapped_insertIfAbsent (h : s.insertIfAbsent key id = .ok t) :
    t.mapped = s.mapped.add 1 := by
  unfold insertIfAbsent at h
  split at h
  · cases h
  · cases h
    rfl

theorem replaceIfMatch_eq_some (h : s.replaceIfMatch key other id = some t) :
    s.get? key = some other ∧ t = { s with entries := Assoc.put key id s.entries } := by
  unfold replaceIfMatch at h
  split at h
  · rename_i hk
    cases h
    exact ⟨hk, rfl⟩
  · cases h

theorem get?_of_replaceIfMatch (h : s.replaceIfMatch key other id = some t) :
    s.get? key = some other :=
  (replaceIfMatch_eq_some h).1

theorem size_replaceIfMatch (h : s.replaceIfMatch key other id = some t) : t.size = s.size := by
  rw [(replaceIfMatch_eq_some h).2]
  rfl

theorem removeIfMatch_eq_some (h : s.removeIfMatch key id = some t) :
    s.get? key = some id ∧
      t = { entries := Assoc.drop key s.entries, mapped := s.mapped.sub 1 } := by
  unfold removeIfMatch at h
  split at h
  · rename_i hk
    cases h
    exact ⟨hk, rfl⟩
  · cases h

theorem get?_of_removeIfMatch (h : s.removeIfMatch key id = some t) : s.get? key = some id :=
  (removeIfMatch_eq_some h).1

/-- Removing a key removes the very node it is mapped to. -/
theorem remove_eq_some_iff :
    s.remove key = some (id, t) ↔ s.removeIfMatch key id = some t := by
  unfold remove removeIfMatch
  cases hk : s.get? key with
  | none => simp
  | some other =>
    by_cases he : other = id
    · simp [he]
    · simp [he]

theorem remove_eq_none_iff : s.remove key = none ↔ s.get? key = none := by
  simp [remove]

theorem Counted.insertIfAbsent (h : s.Counted) (ht : s.insertIfAbsent key id = .ok t) :
    t.Counted := by
  obtain ⟨hk, he, hs⟩ := insertIfAbsent_eq_ok ht
  constructor
  · rw [he, List.map_cons, List.nodup_cons]
    refine ⟨fun hm => ?_, h.nodup⟩
    obtain ⟨⟨k, id⟩, hp, rfl⟩ := List.mem_map.mp hm
    exact absurd (hk.symm.trans (h.mem_iff.mp hp)) (by simp)
  · simp [he, hs, h.size]

theorem Counted.replaceIfMatch (h : s.Counted) (ht : s.replaceIfMatch key other id = some t) :
    t.Counted := by
  obtain ⟨hk, he⟩ := replaceIfMatch_eq_some ht
  have hlength := (Assoc.perm_drop h.nodup hk).length_eq
  rw [he]
  exact ⟨Assoc.nodup_put h.nodup, h.size.trans hlength⟩

/-- A mapping that goes away was counted. -/
theorem Counted.size_removeIfMatch (h : s.Counted) (ht : s.removeIfMatch key id = some t) :
    t.size + 1 = s.size := by
  obtain ⟨hk, he⟩ := removeIfMatch_eq_some ht
  have hlength := (Assoc.perm_drop h.nodup hk).length_eq
  rw [List.length_cons, ← h.size] at hlength
  have hsize : t.size = s.size - 1 := by
    rw [he]
    rfl
  omega

theorem Counted.removeIfMatch (h : s.Counted) (ht : s.removeIfMatch key id = some t) :
    t.Counted := by
  obtain ⟨hk, he⟩ := removeIfMatch_eq_some ht
  have hsize := h.size_removeIfMatch ht
  have hlength := (Assoc.perm_drop h.nodup hk).length_eq
  rw [List.length_cons, ← h.size] at hlength
  refine ⟨?_, by rw [he] at hsize ⊢; exact Nat.succ.inj (hsize.trans hlength)⟩
  rw [he]
  exact Assoc.nodup_drop h.nodup

def emptied (s : Store) : Store := { entries := [], mapped := s.mapped.sub s.size }

theorem emptied_eq_self (hentries : s.entries = []) (hsize : s.size = 0) : s.emptied = s := by
  rw [emptied, hsize, Gauge.sub_zero, ← hentries]

/-- It makes no difference whether a mapping goes before the others or with them. -/
theorem Counted.emptied_removeIfMatch (h : s.Counted) (ht : s.removeIfMatch key id = some t) :
    t.emptied = s.emptied := by
  have hsize := h.size_removeIfMatch ht
  have hmapped : t.mapped = s.mapped.sub 1 := by rw [(removeIfMatch_eq_some ht).2]
  rw [emptied, emptied, hmapped, Gauge.sub_sub, Nat.add_comm, hsize]

/-- A key that is mapped to a new node leaves a sound store sound. -/
theorem Sound.of_mapped (h : s.Sound p) (ht : t.Counted)
    (hget : ∀ k, t.get? k = if k = key then some p.next else s.get? k) (fresh : Held) :
    t.Sound (p.add key fresh) := by
  refine ⟨ht.nodup, ht.size, ?_, ?_⟩
  · intro k id hg
    rw [hget] at hg
    rw [Pool.key_add]
    split at hg
    · rename_i hkey
      simp [← Option.some.inj hg, hkey]
    · rw [if_neg (Nat.ne_of_lt (h.made k id hg))]
      exact h.keyed k id hg
  · intro k id hg
    rw [hget] at hg
    rw [Pool.next_add]
    split at hg
    · rw [← Option.some.inj hg]
      exact Nat.lt_succ_self _
    · exact Nat.lt_succ_of_lt (h.made k id hg)

theorem Sound.add (h : s.Sound p) (ht : s.insertIfAbsent key p.next = .ok t) (fresh : Held) :
    t.Sound (p.add key fresh) :=
  h.of_mapped (h.counted.insertIfAbsent ht) (get?_insertIfAbsent ht) fresh

theorem Sound.supersede (h : s.Sound p) (ht : s.replaceIfMatch key other p.next = some t)
    (fresh : Held) : t.Sound (p.add key fresh) :=
  h.of_mapped (h.counted.replaceIfMatch ht) (get?_replaceIfMatch ht) fresh

theorem Sound.removeIfMatch (h : s.Sound p) (ht : s.removeIfMatch key id = some t) :
    t.Sound p := by
  have hcounted := h.counted.removeIfMatch ht
  have sub (k : Key) (id : NodeId) (hg : t.get? k = some id) : s.get? k = some id := by
    rw [get?_removeIfMatch ht] at hg
    split at hg
    · cases hg
    · exact hg
  exact ⟨hcounted.nodup, hcounted.size, fun k id hg => h.keyed k id (sub k id hg),
    fun k id hg => h.made k id (sub k id hg)⟩

end Store

end BoundedCache
