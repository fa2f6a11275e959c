import Mathlib.Algebra.Ring.Nat
import Mathlib.Data.List.Basic
import BoundedCache.Proofs.Engine.Settled

namespace BoundedCache

def Weigher.weight (w : Weigher) (value : Value) : Nat :=
  match w value with
  | .ok weight => weight.toNat
  | .error _ => 0

def Pool.liveOf (p : Pool) (entries : List (Key × NodeId)) : List Entry :=
  entries.filterMap fun m => (p.held m.2).map fun held => ⟨m.1, held.value⟩

namespace Engine

def live (e : Engine) : List Entry := e.pool.liveOf e.store.entries

variable {e : Engine} {p : Pool} {s : Store} {id : NodeId} {key : Key} {last fresh : Held}
  {next : Option Held} {pending : List Event} {w : Weigher}

theorem liveOf_congr {q : Pool} {entries : List (Key × NodeId)}
    (h : ∀ m ∈ entries, q.held m.2 = p.held m.2) : q.liveOf entries = p.liveOf entries :=
  List.filterMap_congr fun m hm => by rw [h m hm]

theorem liveOf_cons_of_held {entries : List (Key × NodeId)} (h : p.held id = some last) :
    p.liveOf ((key, id) :: entries) = ⟨key, last.value⟩ :: p.liveOf entries := by
  simp [Pool.liveOf, h]

namespace Paired

/-- A live node stands out among the mappings, and no other mapping leads to it. -/
theorem perm_entries (h : e.Paired) (hl : e.pool.held id = some last) :
    e.store.entries.Perm
        ((e.pool.key id, id) :: Assoc.drop (e.pool.key id) e.store.entries) ∧
      ∀ m ∈ Assoc.drop (e.pool.key id) e.store.entries, m.2 ≠ id := by
  have hk := (h.mapped id).mpr (by simp [hl])
  refine ⟨Assoc.perm_drop h.store.nodup hk, fun m hm he => ?_⟩
  obtain ⟨hm, hne⟩ := Assoc.mem_drop.mp hm
  exact hne (by rw [← he, h.store.keyed m.1 m.2 (h.store.mem_iff.mp hm)])

/-- A write to a live node leaves the pairs of all others alone. -/
theorem liveOf_rewrites (h : e.Paired) (hq : e.pool.Rewrites p id last next) :
    p.liveOf (Assoc.drop (e.pool.key id) e.store.entries) =
      e.pool.liveOf (Assoc.drop (e.pool.key id) e.store.entries) :=
  liveOf_congr fun m hm => by rw [hq.held, if_neg ((h.perm_entries hq.was).2 m hm)]

/-- The pair of a live node and the other live pairs. -/
theorem live_perm (h : e.Paired) (hl : e.pool.held id = some last) :
    e.live.Perm (⟨e.pool.key id, last.value⟩ ::
      e.pool.liveOf (Assoc.drop (e.pool.key id) e.store.entries)) := by
  have hperm := (h.perm_entries hl).1.filterMap
    fun m => (e.pool.held m.2).map fun held => (⟨m.1, held.value⟩ : Entry)
  refine hperm.trans (List.Perm.of_eq ?_)
  exact liveOf_cons_of_held hl

theorem live_replace (h : e.Paired) (hq : e.pool.Rewrites p id last (some fresh)) :
    (⟨e.pool.key id, last.value⟩ :: live { e with pool := p }).Perm
      (⟨e.pool.key id, fresh.value⟩ :: e.live) := by
  have hnew : p.held id = some fresh := by simp [hq.held]
  have hlive := (h.replace hq).live_perm hnew
  simp only [hq.key, h.liveOf_rewrites hq] at hlive
  exact (hlive.cons _).trans ((List.Perm.swap _ _ _).trans ((h.live_perm hq.was).symm.cons _))

theorem live_insert (h : e.Paired) (ht : e.store.insertIfAbsent key e.pool.next = .ok s)
    (fresh : Held) :
    live { e with pool := e.pool.add key fresh, store := s } = ⟨key, fresh.value⟩ :: e.live := by
  obtain ⟨_, hentries, _⟩ := Store.insertIfAbsent_eq_ok ht
  have hnew : (e.pool.add key fresh).held e.pool.next = some fresh := by simp [Pool.held_add]
  have hold : (e.pool.add key fresh).liveOf e.store.entries = e.pool.liveOf e.store.entries := by
    refine liveOf_congr fun m hm => ?_
    have hlt := h.store.made m.1 m.2 (h.store.mem_iff.mp hm)
    rw [Pool.held_add, if_neg (Nat.ne_of_lt hlt)]
  show (e.pool.add key fresh).liveOf s.entries = _
  rw [hentries, liveOf_cons_of_held hnew, hold]
  rfl

theorem live_retire (h : e.Paired) (hq : e.pool.Rewrites p id last none)
    (ht : e.store.removeIfMatch (e.pool.key id) id = some s) :
    e.live.Perm (⟨e.pool.key id, last.value⟩ :: live { e with pool := p, store := s }) := by
  have hentries : s.entries = Assoc.drop (e.pool.key id) e.store.entries := by
    have hk := Store.get?_of_removeIfMatch ht
    rw [Store.removeIfMatch, if_pos hk] at ht
    cases ht
    rfl
  show e.live.Perm (_ :: p.liveOf s.entries)
  rw [hentries, h.liveOf_rewrites hq]
  exact h.live_perm hq.was

end Paired

/-- A replay touches neither nodes nor store. -/
theorem unchanged_replay (e : Engine) : e.replay.2.pool = e.pool ∧ e.replay.2.store = e.store :=
  Buffered.drain_rel (R := fun e e' : Engine => e'.pool = e.pool ∧ e'.store = e.store)
    (fun _ => ⟨rfl, rfl⟩) (fun h h' => ⟨h'.1.trans h.1, h'.2.trans h.2⟩)
    (fun _ _ _ => ⟨rfl, rfl⟩) (fun ev e => ⟨pool_apply e ev, store_apply e ev⟩) e

/-- A drain gives no node a value. -/
theorem held_of_run {capacity : Nat} {held : Held}
    (h : (e.run capacity).2.pool.held id = some held) : e.pool.held id = some held := by
  have hreplayed : e.replay.2.pool.held id = some held := held_of_evictUpTo _ _ _ h
  rw [← hreplayed, e.unchanged_replay.1]

/-- Buffers and deque have no say. -/
theorem live_replay (e : Engine) : e.replay.2.live = e.live := by
  rw [live, live, e.unchanged_replay.1, e.unchanged_replay.2]

/-- The victims of an eviction are the pairs that are no longer alive. -/
theorem Paired.live_evictUpTo (h : e.Paired) (capacity n : Nat) :
    e.live.Perm ((Engine.evictUpTo capacity n e).1 ++ (Engine.evictUpTo capacity n e).2.live) := by
  induction n generalizing e with
  | zero => exact .refl _
  | succ n ih =>
    unfold Engine.evictUpTo
    split
    · exact .refl _
    · cases e.deque.popFront? with
      | none => exact .refl _
      | some popped =>
        obtain ⟨id, d⟩ := popped
        have hpop : Paired { e with deque := d } := h.of_eq rfl rfl
        dsimp only
        cases hx : ({ e with deque := d } : Engine).expel id with
        | none => exact ih hpop
        | some result =>
          obtain ⟨last, e1⟩ := result
          obtain ⟨p, s, hq, ht, rfl⟩ := hpop.expel_eq hx
          have hrest := ih (hpop.expel hx).1
          dsimp only at hrest ⊢
          rw [key_evictUpTo hq, List.cons_append]
          exact (h.live_retire hq ht).trans (hrest.cons _)

/-- A full drain takes out the pairs of its victims and no other. -/
theorem Paired.live_run (h : e.Paired) (capacity : Nat) :
    e.live.Perm ((e.run capacity).1.victims ++ (e.run capacity).2.live) := by
  rw [← live_replay e]
  exact h.replay.live_evictUpTo capacity _

/-- The store counts the live pairs. -/
theorem Paired.length_live (h : e.Paired) : e.live.length = e.store.size := by
  have hall : ∀ m ∈ e.store.entries,
      ((e.pool.held m.2).map fun held => (⟨m.1, held.value⟩ : Entry)).isSome := by
    intro m hm
    obtain ⟨last, hl⟩ := h.alive (h.store.mem_iff.mp hm)
    simp [hl]
  rw [live, Pool.liveOf, List.length_filterMap_eq_countP, List.countP_eq_length.mpr hall,
    h.store.size]

/-- The nodes that were expelled are no longer alive. -/
theorem Paired.length_live_expelAll (h : e.Paired) (ids : List NodeId) :
    e.live.length = (Engine.expelAll ids e).1 + (Engine.expelAll ids e).2.live.length := by
  induction ids generalizing e with
  | nil => simp [Engine.expelAll]
  | cons id ids ih =>
    unfold Engine.expelAll
    cases hx : e.expel id with
    | none => exact ih h
    | some result =>
      obtain ⟨last, e1⟩ := result
      have hlater := ih (h.expel hx).1
      obtain ⟨p, s, hq, ht, rfl⟩ := h.expel_eq hx
      have hone := (h.live_retire hq ht).length_eq
      rw [List.length_cons] at hone
      dsimp only at hlater ⊢
      omega

/-- A clearing counts the live pairs. -/
theorem Paired.clear_count (h : e.Paired) : e.clear.1 = e.live.length := by
  have hreplayed := h.replay
  let unlinked : Engine := { e.replay.2 with deque := e.replay.2.deque.drain.2 }
  have hunlinked : unlinked.Paired := hreplayed.of_eq rfl rfl
  have hlinked := hunlinked.length_live_expelAll e.replay.2.deque.drain.1
  obtain ⟨hpaired, _, _⟩ := hunlinked.expelAll e.replay.2.deque.drain.1
  have hmapped := hpaired.length_live_expelAll
    (Engine.expelAll e.replay.2.deque.drain.1 unlinked).2.store.nodes
  obtain ⟨heq, _, hnil, _⟩ := hpaired.clearMapped
  have hnone : (Engine.expelAll (Engine.expelAll e.replay.2.deque.drain.1 unlinked).2.store.nodes
      (Engine.expelAll e.replay.2.deque.drain.1 unlinked).2).2.live = [] := by
    rw [← heq, live, hnil]
    rfl
  rw [hnone, List.length_nil] at hmapped
  have hsame : unlinked.live = e.live := live_replay e
  rw [← hsame, hlinked, hmapped]
  rfl

/-- With no write pending, the links weigh as much as the live values. -/
theorem Accounted.sum_live (h : Accounted pending e) (hr : ∀ ev ∈ pending, ev.kind = .read)
    (hw : ∀ id held, e.pool.held id = some held → w held.value = .ok held.weight) :
    (e.live.map fun pair => w.weight pair.value).sum = e.deque.weightedSize := by
  -- The weight of a node, through which both sums go.
  let weigh (id : NodeId) : Nat := ((e.pool.held id).map fun held => held.weight.toNat).getD 0
  have hlive : e.live.map (fun pair => w.weight pair.value) = e.store.nodes.map weigh := by
    have hall : ∀ m ∈ e.store.entries, ∃ held, e.pool.held m.2 = some held := fun m hm =>
      h.alive (h.store.mem_iff.mp hm)
    have main (entries : List (Key × NodeId))
        (hall : ∀ m ∈ entries, ∃ held, e.pool.held m.2 = some held) :
        (e.pool.liveOf entries).map (fun pair => w.weight pair.value) =
          (entries.map (·.2)).map weigh := by
      induction entries with
      | nil => rfl
      | cons m rest ih =>
        obtain ⟨held, hh⟩ := hall m (by simp)
        rw [liveOf_cons_of_held hh, List.map_cons, List.map_cons, List.map_cons,
          ih fun m hm => hall m (by simp [hm])]
        simp [weigh, hh, Weigher.weight, hw m.2 held hh]
    exact main e.store.entries hall
  have hlinked : e.deque.toList.map (·.weight.toNat) = (e.deque.toList.map (·.node)).map weigh := by
    rw [List.map_map]
    refine List.map_congr_left fun l hl => ?_
    obtain ⟨held, hh, heq⟩ := h.exists_held hr hl
    simp [weigh, hh, heq]
  rw [hlive, Deque.Ring.weightedSize h.deque, hlinked]
  exact ((h.perm_nodes hr).map weigh).sum_nat

end Engine

end BoundedCache
