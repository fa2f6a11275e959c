import BoundedCache.Proofs.Cache.Quiescence

namespace BoundedCache

namespace Cache

/-- The caches that stand between two steps of runs. A step leads to the next of them once all
writes made in it have returned, those in gaps and in reactions included. -/
inductive Boundary (s : Settings) : Cache → Prop where
  | built {fresh : Cache} (build : s.build = .ok fresh) : Boundary s fresh
  | step {c : Cache} {op : Op} (before : Boundary s c) (within : op.within .concurrent = true)
      (ended : ∀ d ∈ (op.run deliver c).1.deeds, d.ended = true)
      (reactions : ∀ d ∈ (op.run deliver c).2.reactions, d.ended = true) :
      Boundary s (op.run deliver c).2
  | held {c : Cache} (before : Boundary s c) : Boundary s { c with lockHeld := true }

/-- All that store and deque disagree about waits in the buffers, and no removal waits there
unfounded. -/
structure Reconcilable (c : Cache) : Prop where
  recorded : ∀ id, c.engine.deque.slotOf id = none ↔ id ∉ c.engine.deque.toList.map (·.node)
  adds : ∀ key id held, c.engine.store.get? key = some id → c.engine.pool.held id = some held →
    id ∉ c.engine.deque.toList.map (·.node) → ⟨.add, id⟩ ∈ c.engine.buffers.events
  mapped : ∀ l ∈ c.engine.deque.toList, ∀ held, c.engine.pool.held l.node = some held →
    c.engine.store.get? (c.engine.pool.key l.node) = some l.node
  updates : ∀ l ∈ c.engine.deque.toList, ∀ held, c.engine.pool.held l.node = some held →
    l.weight ≠ held.weight → ⟨.update, l.node⟩ ∈ c.engine.buffers.events
  unmapped : ∀ l ∈ c.engine.deque.toList, c.engine.pool.held l.node = none →
    l.node ∉ c.engine.store.nodes
  removes : ∀ l ∈ c.engine.deque.toList, c.engine.pool.held l.node = none →
    ⟨.remove, l.node⟩ ∈ c.engine.buffers.events
  retired : ∀ id, ⟨.remove, id⟩ ∈ c.engine.buffers.events → c.engine.pool.held id = none

variable {s : Settings} {c fresh : Cache} {ops : List Op}

/-- What the events in the buffers cover alone, replays can settle. -/
theorem Covered.reconcilable (h : c.Covered []) : c.Reconcilable := by
  have hacc : c.engine.Accounted c.engine.buffers.events := h.accounted
  have hring : c.engine.deque.Ring c.engine.deque.toList := hacc.deque
  have hlink : ∀ l ∈ c.engine.deque.toList, c.engine.deque.weightOf? l.node = some l.weight :=
    fun l hl => hacc.deque.weightOf?_eq_some_iff.mpr ⟨l, hl, rfl, rfl⟩
  constructor
  · exact fun id => hring.slotOf_eq_none_iff
  · intro key id held _ hh hn
    have hw : c.engine.deque.weightOf? id = none :=
      Deque.weightOf?_eq_none_iff.mpr (hring.slotOf_eq_none_iff.mpr hn)
    exact hacc.adds id held hh hw
  · intro l _ held hh
    exact (hacc.mapped l.node).mpr (by simp [hh])
  · intro l hl held hh hne
    rcases hacc.updates l.node held l.weight hh (hlink l hl) with he | hm
    · exact absurd he.symm hne
    · exact hm
  · intro l _ hh hm
    have hk := (hacc.mapped l.node).mp (hacc.store.mem_nodes_iff.mp hm)
    rw [hh] at hk
    cases hk
  · intro l hl hh
    exact hacc.removes l.node l.weight hh (hlink l hl)
  · exact hacc.retired

namespace Boundary

/-- One step, with all that ran in it at its end, leaves no event in hand. -/
theorem covered (h : Boundary s c)
    (hscripts : ∀ l ∈ s.listener, l.Stocks Scope.concurrent.Allows) :
    c.Proper Scope.concurrent.Allows ∧ c.Covered [] := by
  induction h with
  | built build =>
    obtain ⟨_, rfl⟩ := Settings.eq_empty_of_build build
    exact ⟨Settings.proper_empty hscripts, s.covered_empty⟩
  | step before within ended reactions ih =>
    obtain ⟨hp, hc⟩ := ih
    have hguards : Guards .concurrent deliver := guards_deliver rfl
    obtain ⟨hevolves, hkeeps⟩ := Op.run_spec (lawful_keepsCover hguards rfl)
      (steady_deliver .concurrent) _ _ within hp
    exact ⟨hevolves.proper hp, hkeeps ended reactions [] hc⟩
  | held before ih => exact ⟨ih.1.underLock, ih.2.of_eq rfl rfl⟩

/-- The steps of a row lead from boundary to boundary. -/
theorem runAll (h : Boundary s c) (hscripts : ∀ l ∈ s.listener, l.Stocks Scope.concurrent.Allows)
    (hops : Op.allWithin .concurrent ops = true)
    (hended : ∀ d ∈ Step.allDeeds (Op.runAll deliver ops c).1, d.ended = true)
    (hreactions : ∀ d ∈ (Op.runAll deliver ops c).2.reactions, d.ended = true) :
    Boundary s (Op.runAll deliver ops c).2 := by
  induction ops generalizing c with
  | nil => exact h
  | cons op rest ih =>
    rw [Op.allWithin, Bool.and_eq_true] at hops
    have hp := (h.covered hscripts).1
    have hp' := (Op.run_evolves (steady_deliver .concurrent) op c hops.1 hp).proper hp
    have hlater : (op.run deliver c).2.Evolves (Op.runAll deliver rest (op.run deliver c).2).2 :=
      Op.runAll_evolves (steady_deliver .concurrent) rest _ hops.2 hp'
    have hdeeds := List.forall_mem_append.mp hended
    have hfirst : Boundary s (op.run deliver c).2 :=
      .step h hops.1 hdeeds.1 fun d hd => hreactions d (hlater.mem_reactions hd)
    exact ih hfirst hops.2 hdeeds.2 hreactions

end Boundary

/-- Between two steps of any run, on a free lock or under a foreign one, every disagreement between
store and deque has its event in a buffer. -/
theorem reconcilable_at_boundary (h : Boundary s c)
    (hscripts : ∀ l ∈ s.listener, l.Stocks Scope.concurrent.Allows) : c.Reconcilable :=
  (h.covered hscripts).2.reconcilable

/-- Two entries, and then, under a foreign lock, an insertion with a removal in its gap, a clean-up
that waits, and an update. -/
def midway : Cache :=
  (Op.runAll deliver
    [.interrupted (.put "c" "3") [.call (.remove "a")], .call .cleanUp, .call (.put "b" "4")]
    { (Op.runAll deliver [.call (.put "a" "1"), .call (.put "b" "2")] crowded.empty).2 with
      lockHeld := true }).2

theorem reconcilable_at_boundary_midway : midway.Reconcilable ∧
    midway.engine.buffers.events = [⟨.remove, 0⟩, ⟨.add, 2⟩, ⟨.update, 1⟩] := by
  have hscripts : ∀ l ∈ crowded.listener, l.Stocks Scope.concurrent.Allows := by
    simp [crowded, Listener.Stocks, Scope.Allows, Op.allWithin, Op.within, Scope.concurrent]
  have hbuilt : Boundary crowded crowded.empty := .built rfl
  have hfilled : Boundary crowded
      (Op.runAll deliver [.call (.put "a" "1"), .call (.put "b" "2")] crowded.empty).2 :=
    hbuilt.runAll hscripts rfl (List.all_eq_true.mp (by cbv)) (List.all_eq_true.mp (by cbv))
  have hmidway : Boundary crowded midway := hfilled.held.runAll hscripts rfl
    (List.all_eq_true.mp (by cbv)) (List.all_eq_true.mp (by cbv))
  exact ⟨reconcilable_at_boundary hmidway hscripts, by cbv⟩

end Cache

end BoundedCache
