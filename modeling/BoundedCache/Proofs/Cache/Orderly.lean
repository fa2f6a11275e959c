import Mathlib
import BoundedCache.Proofs.Cache.Moves
import BoundedCache.Proofs.Deque.Validate

namespace BoundedCache

namespace Cache

variable {c : Cache} {l : Linked} {xs : List Linked}

/-- The cache is at rest, and its deque holds the mapped nodes as `xs`. -/
structure Orderly (c : Cache) (xs : List Linked) : Prop where
  free : c.lockHeld = false
  settled : c.engine.buffers.Settled
  delivered : c.relay.queue = []
  closed : c.engine.deque.Closed xs
  linked : ∀ key id, c.engine.store.get? key = some id → (xs.map (·.node)).count id = 1
  mapped : ∀ l ∈ xs, c.engine.store.get? (c.engine.pool.key l.node) = some l.node
  weighed : ∀ l ∈ xs, ∃ held, c.engine.pool.held l.node = some held ∧ held.weight = l.weight ∧
    c.weigher held.value = .ok l.weight
  published : c.published = (xs.map (·.weight.toNat)).sum
  fits : c.published ≤ c.capacity

theorem restFault?_eq_none_iff : c.restFault? = none ↔
    c.lockHeld = false ∧ c.engine.buffers.Settled ∧ c.relay.queue = [] := by
  rw [Buffers.settled_iff]
  unfold restFault?
  cases c.lockHeld with
  | true => simp
  | false =>
    have hpending : c.engine.buffers.pending = 0 ↔ c.engine.buffers.events = [] :=
      List.length_eq_zero_iff
    have hidle : c.engine.buffers.statuses.find? (· ≠ .idle) = none ↔
        ∀ buffer ∈ c.engine.buffers.stripes, buffer.status = .idle := by
      simp [Buffers.statuses]
    dsimp only
    rw [← hpending, ← hidle]
    by_cases hp : c.engine.buffers.pending = 0
    · cases hf : c.engine.buffers.statuses.find? (· ≠ .idle) with
      | none => simp [hp]
      | some status => simp [hp]
    · simp [hp]

theorem linkedFault?_eq_none_iff : c.linkedFault? l = none ↔
    (∃ held, c.engine.pool.held l.node = some held ∧ held.weight = l.weight ∧
      c.weigher held.value = .ok l.weight) ∧
      c.engine.store.get? (c.engine.pool.key l.node) = some l.node := by
  unfold linkedFault?
  cases c.engine.pool.held l.node with
  | none => simp
  | some held =>
    have hweigher : (c.weigher held.value).toOption = some l.weight ↔
        c.weigher held.value = .ok l.weight := by
      cases c.weigher held.value <;> simp [Except.toOption]
    dsimp only
    by_cases hw : held.weight ≠ l.weight ∨ (c.weigher held.value).toOption ≠ some l.weight
    · rw [if_pos hw]
      grind
    · rw [if_neg hw]
      grind

theorem sizeFault?_eq_none_iff : c.sizeFault? = none ↔
    c.published = c.engine.deque.weightedSize ∧ c.published ≤ c.capacity := by
  unfold sizeFault?
  grind

/-- A check passes if each of its parts does. -/
theorem check_eq_ok_iff_parts : c.check = .ok () ↔
    c.restFault? = none ∧ c.engine.deque.validate = .ok () ∧
      c.engine.deque.length = c.length ∧ c.engine.deque.toList.findSome? c.linkedFault? = none ∧
      c.sizeFault? = none := by
  unfold check
  dsimp only
  cases c.restFault? with
  | some fault => simp
  | none =>
    cases c.engine.deque.validate with
    | error fault => simp
    | ok _ =>
      by_cases hlength : c.engine.deque.length = c.length
      · cases c.engine.deque.toList.findSome? c.linkedFault? with
        | some fault => simp [hlength]
        | none => cases c.sizeFault? <;> simp [hlength]
      · simp [hlength]

/-- The linked nodes are the mapped ones, each once, if all of them are mapped and there are as many
as mappings. -/
theorem perm_nodes (hs : c.engine.store.Sound c.engine.pool) (hx : c.engine.deque.Closed xs)
    (hmapped : ∀ l ∈ xs, c.engine.store.get? (c.engine.pool.key l.node) = some l.node)
    (hlength : c.engine.deque.length = c.length) :
    (xs.map (·.node)).Perm c.engine.store.nodes := by
  have hsub : xs.map (·.node) ⊆ c.engine.store.nodes := by
    intro id hid
    obtain ⟨l, hl, rfl⟩ := List.mem_map.mp hid
    exact hs.mem_nodes_iff.mpr (hmapped l hl)
  refine (List.Nodup.subperm hx.nodup_nodes hsub).perm_of_length_le ?_
  rw [Store.nodes, List.length_map, List.length_map, ← hs.size, ← hx.length, hlength]
  exact Nat.le_refl _

/-- So they are if each mapped node is linked once. -/
theorem Orderly.perm_nodes (h : c.Orderly xs) (hs : c.engine.store.Sound c.engine.pool) :
    (xs.map (·.node)).Perm c.engine.store.nodes := by
  refine (List.perm_ext_iff_of_nodup h.closed.nodup_nodes hs.nodup_nodes).mpr fun id => ?_
  rw [hs.mem_nodes_iff]
  constructor
  · intro hid
    obtain ⟨l, hl, rfl⟩ := List.mem_map.mp hid
    exact h.mapped l hl
  · intro hk
    have hcount := h.linked _ id hk
    exact List.count_pos_iff.mp (by omega)

theorem Orderly.check_eq_ok (h : c.Orderly xs) (hs : c.engine.store.Sound c.engine.pool) :
    c.check = .ok () := by
  have hlength : c.engine.deque.length = c.length := by
    have hsame := (h.perm_nodes hs).length_eq
    rw [Store.nodes, List.length_map, List.length_map, ← hs.size] at hsame
    exact h.closed.length.trans hsame
  have hlinked : c.engine.deque.toList.findSome? c.linkedFault? = none := by
    rw [h.closed.toList_eq, List.findSome?_eq_none_iff]
    exact fun l hl => linkedFault?_eq_none_iff.mpr ⟨h.weighed l hl, h.mapped l hl⟩
  exact check_eq_ok_iff_parts.mpr ⟨restFault?_eq_none_iff.mpr ⟨h.free, h.settled, h.delivered⟩,
    h.closed.validate_eq_ok, hlength, hlinked,
    sizeFault?_eq_none_iff.mpr ⟨h.published.trans h.closed.weightedSize.symm, h.fits⟩⟩

/-- The check is exact. Of a cache whose store is a map of nodes under their own keys and counts
them right, it accepts what is at rest and in order, and nothing else. -/
theorem check_iff_orderly (hs : c.engine.store.Sound c.engine.pool) :
    c.check = .ok () ↔ ∃ xs, c.Orderly xs := by
  constructor
  · intro h
    obtain ⟨hrest, hvalidate, hlength, hlinked, hsize⟩ := check_eq_ok_iff_parts.mp h
    obtain ⟨hfree, hsettled, hdelivered⟩ := restFault?_eq_none_iff.mp hrest
    obtain ⟨hpublished, hfits⟩ := sizeFault?_eq_none_iff.mp hsize
    obtain ⟨xs, hx⟩ := Deque.validate_eq_ok_iff.mp hvalidate
    rw [hx.toList_eq, List.findSome?_eq_none_iff] at hlinked
    have hall (l : Linked) (hl : l ∈ xs) := linkedFault?_eq_none_iff.mp (hlinked l hl)
    have hperm := Cache.perm_nodes hs hx (fun l hl => (hall l hl).2) hlength
    refine ⟨xs, hfree, hsettled, hdelivered, hx, fun key id hk => ?_, fun l hl => (hall l hl).2,
      fun l hl => (hall l hl).1, hpublished.trans hx.weightedSize, hfits⟩
    have hid : id ∈ xs.map (·.node) := hperm.mem_iff.mpr (hs.mem_nodes_iff.mpr (hs.eq_key hk))
    exact List.count_eq_one_of_mem hx.nodup_nodes hid
  · exact fun ⟨xs, h⟩ => h.check_eq_ok hs

def shelved : List Op :=
  [.call (.put "a" "1"), .call (.put "b" "2"), .call (.get "a"), .call .cleanUp]

/-- One linked node has lost its mapping, and one mapped node is not linked. -/
def misshelved : List Op := shelved ++ [.probe (.unmap "a"), .probe (.map "c" "3")]

theorem check_iff_orderly_shelved :
    let c := (perform shelved { capacity := 2 : Settings }.empty).2
    let c' := (perform misshelved { capacity := 2 : Settings }.empty).2
    c.engine.deque.toList.map (·.node) = [1, 0] ∧ (∃ xs, c.Orderly xs) ∧
      c'.engine.deque.length = c'.length ∧ c'.check = .error (.unmapped 1) ∧
      ¬ ∃ xs, c'.Orderly xs := by
  have hs := (reachable_perform (s := { capacity := 2 }) rfl shelved).sound
  have hs' := (reachable_perform (s := { capacity := 2 }) rfl misshelved).sound
  have hfault : (perform misshelved { capacity := 2 : Settings }.empty).2.check =
      .error (.unmapped 1) := by cbv
  refine ⟨by cbv, (check_iff_orderly hs).mp (by cbv), by cbv, hfault, fun horderly => ?_⟩
  cases hfault.symm.trans ((check_iff_orderly hs').mpr horderly)

end Cache

end BoundedCache
