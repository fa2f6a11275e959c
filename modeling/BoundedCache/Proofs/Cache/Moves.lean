import BoundedCache.Proofs.Cache.Course

namespace BoundedCache

open Cache

variable {c : Cache} {courier : Courier}

theorem Courier.moving_busy : Courier.busy.Moving := fun c => .refl c

namespace Cache

variable {l l' : Listener (List Op)} {n : Nat} {c' : Cache}

theorem Deliveries.moves (h : Deliveries l c n l' c') : c.Moves c' := by
  induction h with
  | done => exact .refl _
  | @next l l' c c' e rest n _ _ ih =>
    refine Moves.trans ?_ ih
    have hdequeue : c.Moves (c.dequeue rest) := .of_eq rfl rfl
    cases hs : (l.respond e).1.script with
    | none =>
      rw [tell_of_silent hs]
      exact .of_eq rfl rfl
    | some script =>
      rw [tell_of_script hs]
      have hrun := Op.runAll_moves Courier.moving_busy script (c.dequeue rest)
      exact hdequeue.trans (hrun.trans (.of_eq rfl rfl))

theorem moving_deliver : Courier.Moving deliver := by
  intro c
  rcases deliver_cases c with ⟨_, hd⟩ | ⟨l, n, l', c', _, hdel, hd⟩
  · rw [hd]
    exact .refl c
  · rw [hd]
    have haway : c.Moves (c.withListener none) := .of_eq rfl rfl
    exact (haway.trans hdel.moves).trans (.of_eq rfl rfl)

/-- A state that changes of any kind can have led to. What was published, queued or counted is left
open, and so is who holds the lock: operations go through such states from their beginning to their
end, and inside of a hold, a replay or a reaction. -/
def Reachable (s : Settings) (c : Cache) : Prop := ∃ fresh, s.build = .ok fresh ∧ fresh.Moves c

variable {s : Settings} {fresh : Cache}

theorem Reachable.moves (h : Reachable s c) (hm : c.Moves c') : Reachable s c' :=
  have ⟨fresh, hbuild, hc⟩ := h
  ⟨fresh, hbuild, hc.trans hm⟩

/-- Every operation leads from reachable states to reachable states. -/
theorem Reachable.run (h : Reachable s c) (hc : courier = deliver ∨ courier = Courier.busy)
    (op : Op) : Reachable s (op.run courier c).2 := by
  refine h.moves (Op.run_moves ?_ op c)
  rcases hc with rfl | rfl
  · exact moving_deliver
  · exact Courier.moving_busy

/-- Whatever runs at the top level leaves a reachable state. -/
theorem reachable_perform (hbuild : s.build = .ok fresh) (ops : List Op) :
    Reachable s (perform ops fresh).2 := by
  rw [(perform_eq ops fresh).2]
  exact ⟨fresh, hbuild, Op.runAll_moves moving_deliver ops fresh⟩

/-- In a reachable state the store is a map of nodes under their own keys. -/
theorem Reachable.sound (h : Reachable s c) : c.engine.store.Sound c.engine.pool := by
  obtain ⟨fresh, hbuild, hc⟩ := h
  obtain ⟨_, rfl⟩ := Settings.eq_empty_of_build hbuild
  exact hc.evolves.store (.empty _)

end Cache

end BoundedCache
