import Mathlib.Logic.Relation
import BoundedCache.Proofs.Buffers
import BoundedCache.Proofs.Store

namespace BoundedCache.Engine

variable {e e' : Engine} {id : NodeId} {last : Held}

/-- One change of an engine. Drains, evictions and clearings are sequences of these, and so are the
disturbances that a probe can make. -/
inductive Change (e : Engine) : Engine → Prop where
  | rebuffer (b : Buffers) (same : b.emptied = e.buffers.emptied) :
      Change e { e with buffers := b }
  | apply (ev : Event) : Change e (e.apply ev)
  | rewrite {id : NodeId} {last : Held} {next : Option Held} {p : Pool}
      (pool : e.pool.Rewrites p id last next) : Change e { e with pool := p }
  | insert {key : Key} {fresh : Held} {s : Store}
      (store : e.store.insertIfAbsent key e.pool.next = .ok s) :
      Change e { e with pool := e.pool.add key fresh, store := s }
  | supersede {key : Key} {id : NodeId} {fresh : Held} {s : Store}
      (store : e.store.replaceIfMatch key id e.pool.next = some s) :
      Change e { e with pool := e.pool.add key fresh, store := s }
  | unmap {key : Key} {id : NodeId} {s : Store} (store : e.store.removeIfMatch key id = some s) :
      Change e { e with store := s }
  | pop {id : NodeId} {d : Deque} (deque : e.deque.popFront? = some (id, d)) :
      Change e { e with deque := d }
  | weigh {id : NodeId} {slot : Slot} (linked : e.deque.slotOf id = some slot) (w : Weight) :
      Change e { e with deque := e.deque.setWeight slot w }

abbrev Changes : Engine → Engine → Prop := Relation.ReflTransGen Change

theorem Change.record {b : Buffers} {i : Nat} {ev : Event} (h : e.buffers.record i ev = .ok b) :
    Change e { e with buffers := b } := by
  exact .rebuffer _ (Buffers.emptied_record h)

theorem changes_replay (e : Engine) : Changes e e.replay.2 :=
  Buffered.drain_rel (R := Changes) (fun _ => .refl) .trans
    (fun _ b hsame => .single (.rebuffer b hsame)) (fun ev _ => .single (.apply ev)) e

theorem changes_unmap (e : Engine) (id : NodeId) : Changes e (e.unmap id) := by
  unfold unmap
  split
  · exact .single (.unmap ‹_›)
  · exact .refl

theorem changes_expel (h : e.expel id = some (last, e')) : Changes e e' := by
  obtain ⟨⟨held, p⟩, hr, he⟩ := Option.map_eq_some_iff.mp h
  simp only [Prod.mk.injEq] at he
  obtain ⟨rfl, rfl⟩ := he
  exact .head (.rewrite (Pool.rewrites_of_retire hr)) (changes_unmap _ id)

theorem changes_evictUpTo (capacity n : Nat) (e : Engine) :
    Changes e (evictUpTo capacity n e).2 := by
  induction n generalizing e with
  | zero => exact .refl
  | succ n ih =>
    unfold evictUpTo
    split
    · exact .refl
    · cases hp : e.deque.popFront? with
      | none => exact .refl
      | some popped =>
        obtain ⟨id, d⟩ := popped
        have hpop : Change e { e with deque := d } := .pop hp
        dsimp only
        cases hx : ({ e with deque := d } : Engine).expel id with
        | none => exact .head hpop (ih _)
        | some result => exact .head hpop ((changes_expel hx).trans (ih _))

/-- A full drain. -/
theorem changes_run (e : Engine) (capacity : Nat) : Changes e (e.run capacity).2 :=
  (changes_replay e).trans (changes_evictUpTo capacity _ _)

theorem changes_expelAll (ids : List NodeId) (e : Engine) : Changes e (expelAll ids e).2 := by
  induction ids generalizing e with
  | nil => exact .refl
  | cons id ids ih =>
    unfold expelAll
    cases hx : e.expel id with
    | none => exact ih e
    | some result => exact (changes_expel hx).trans (ih _)

theorem changes_foldl_unmap (ids : List NodeId) (e : Engine) :
    Changes e (ids.foldl unmap e) := by
  induction ids generalizing e with
  | nil => exact .refl
  | cons id ids ih => exact (changes_unmap e id).trans (ih _)

theorem changes_popUpTo (n : Nat) (e : Engine) :
    Changes e { e with deque := (Deque.popUpTo n e.deque).2 } := by
  induction n generalizing e with
  | zero => exact .refl
  | succ n ih =>
    unfold Deque.popUpTo
    cases hp : e.deque.popFront? with
    | none => exact .refl
    | some popped =>
      obtain ⟨id, d⟩ := popped
      exact .head (.pop hp) (ih { e with deque := d })

theorem clear_eq (e : Engine) :
    e.clear = (e.replay.2.clearLinked.1 + e.replay.2.clearLinked.2.clearMapped.1,
      e.replay.2.clearLinked.2.clearMapped.2) := by
  unfold clear
  rcases e.replay with ⟨_, e⟩
  dsimp only

theorem changes_clearLinked (e : Engine) : Changes e e.clearLinked.2 :=
  (changes_popUpTo e.deque.links.size e).trans (changes_expelAll e.deque.drain.1 _)

theorem changes_clearMapped (e : Engine) : Changes e e.clearMapped.2 :=
  (changes_expelAll e.store.nodes e).trans (changes_foldl_unmap _ _)

theorem changes_clear (e : Engine) : Changes e e.clear.2 := by
  simp only [clear_eq]
  exact (changes_replay e).trans ((changes_clearLinked _).trans (changes_clearMapped _))

end BoundedCache.Engine
