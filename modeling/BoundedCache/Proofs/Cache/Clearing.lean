import BoundedCache.Proofs.Cache.Integrity
import BoundedCache.Proofs.Cache.Orderly
import BoundedCache.Proofs.Cache.Upkeep
import BoundedCache.Proofs.Engine.Purge

namespace BoundedCache

namespace Cache

/-- What a clearing of `c` leaves before it delivers. -/
structure Purged (c c' : Cache) : Prop where
  retired : ∀ id, id ∈ c.engine.store.nodes ∨ id ∈ c.engine.replay.2.deque.order →
    c'.engine.pool.held id = none
  /-- So every linked node is, unless its removal is pending. -/
  linked : ∀ id ∈ c.engine.deque.order, ⟨.remove, id⟩ ∉ c.engine.buffers.events →
    c'.engine.pool.held id = none
  spared : ∀ id ∉ c.engine.found, c'.engine.pool.node? id = c.engine.pool.node? id
  unmapped : c'.engine.store.entries = []
  unlinked : c'.engine.deque.Ring []
  length : c'.length = 0
  published : c'.published = 0
  settled : c'.engine.buffers.Settled
  rest : c' = { c with engine := c'.engine, published := c'.published }

variable {s : Settings} {c c' fresh : Cache}

theorem purged_cleared (hd : c.engine.deque.WellFormed)
    (hs : c.engine.store.Sound c.engine.pool) (hb : c.engine.buffers.Sound) :
    c.Purged c.cleared.2 ∧ c.cleared.1 = c.engine.found.length := by
  have h := Engine.purges_clear hd hs hb
  rw [cleared_eq]
  generalize c.engine.clear = result at h ⊢
  refine ⟨?_, h.count⟩
  constructor
  · exact fun id hid => h.retired hid.symm
  · exact fun id hid hr => h.retired (.inl (Engine.mem_order_replay hd hb hid hr))
  · exact fun id hid => (h.nodes id).trans (if_neg hid)
  · exact h.unmapped
  · exact h.unlinked
  · exact h.size
  · exact h.unlinked.weightedSize
  · intro buffer hm
    replace hm : buffer ∈ result.2.buffers.stripes := hm
    rw [h.buffers, Buffers.emptied] at hm
    obtain ⟨_, _, rfl⟩ := List.mem_map.mp hm
    rfl
  · rfl

/-- What is left passes the check once nothing waits for the listener. -/
theorem Purged.check_eq_ok (h : c.Purged c') (hlock : c.lockHeld = false)
    {r : Relay (Listener (List Op)) (List Step)} (hqueue : r.queue = []) :
    check { c' with relay := r } = .ok () := by
  have hsound : c'.engine.store.Sound c'.engine.pool :=
    ⟨by simp [h.unmapped], h.length.trans (by simp [h.unmapped]),
      by simp [Store.get?, h.unmapped], by simp [Store.get?, h.unmapped]⟩
  have hlock' : c'.lockHeld = false := by rw [h.rest, hlock]
  have horderly : Orderly { c' with relay := r } [] :=
    ⟨hlock', h.settled, hqueue, h.unlinked.closed, fun key id hk => by simp [Store.get?, h.unmapped] at hk,
      by simp, by simp, h.published, h.published ▸ Nat.zero_le _⟩
  exact horderly.check_eq_ok hsound

/-- The delivery after a clearing. -/
theorem Purged.deliver (h : c.Purged c') (hlock : c.lockHeld = false) (hattended : c.Attended) :
    c.told ++ c.relay.queue <+: c'.deliver.2.told ∧ c'.deliver.2.relay.queue = [] ∧
      ((∀ notice ∈ c'.deliver.2.relay.notices.drop c.relay.notices.length, notice.silent) →
        (∃ relay, c'.deliver.2 = { c' with relay }) ∧
          c'.deliver.2.told = c.told ++ c.relay.queue ∧ c'.deliver.2.check = .ok ()) := by
  have hrelay : c'.relay = c.relay := by rw [h.rest]
  have htold : c'.told = c.told := by rw [told, hrelay, told]
  have hattended' : c'.Attended := ⟨hrelay ▸ hattended.listener, hrelay ▸ hattended.queue⟩
  obtain ⟨hfirst, hnil⟩ := hattended'.told_deliver
  rw [← htold, ← hrelay]
  refine ⟨hfirst, hnil, fun hsilent => ?_⟩
  obtain ⟨r, hr, hall⟩ := hattended'.deliver_silent hsilent
  rw [hr] at hnil ⊢
  exact ⟨⟨r, rfl⟩, hall, h.check_eq_ok hlock hnil⟩

/-- A clearing repairs any state. Whatever operations have run, the lock is free at the top level; a
clearing then answers how many nodes it finds alive, leaves an empty cache, and delivers what was
queued already, before anything that reactions queue. If the listener does nothing but listen it
delivers nothing else, and the cache passes its check. -/
theorem clear_repairs (hbuild : s.build = .ok fresh) (ops : List Op) :
    let c := (perform ops fresh).2
    let last := (Call.run Cache.deliver .clear c).2
    c.lockHeld = false ∧
      Call.run Cache.deliver .clear c = (.count c.engine.found.length, c.cleared.2.deliver.2) ∧
      c.Purged c.cleared.2 ∧
      c.told ++ c.relay.queue <+: last.told ∧ last.relay.queue = [] ∧
      ((∀ notice ∈ last.relay.notices.drop c.relay.notices.length, notice.silent) →
        (∃ relay, last = { c.cleared.2 with relay }) ∧ last.told = c.told ++ c.relay.queue ∧
          last.check = .ok ()) := by
  obtain ⟨hlock, hattended, hsound⟩ := upkeep_perform hbuild ops
  have hreached := reachable_perform hbuild ops
  generalize (perform ops fresh).2 = c at *
  obtain ⟨hpurged, hcount⟩ := purged_cleared hreached.wellFormed hreached.sound hsound
  dsimp only
  rw [run_clear Cache.deliver hlock, hcount]
  exact ⟨hlock, rfl, hpurged, hpurged.deliver hlock hattended⟩

def attentive : Settings := { capacity := 9, listener := some {} }

/-- One node is retired and still mapped and linked, one has lost its mapping and one has lost it to
another node, one is mapped and was never linked, and one is linked with a wrong weight. Events that
nothing justifies wait in several buffers. -/
def wreckage : List Op :=
  [.call (.put "a" "1"), .call (.put "b" "2"), .call (.put "c" "3"), .call (.put "d" "4"),
    .probe (.retire "a"), .probe (.unmap "b"), .probe (.remap "c" "5"), .probe (.map "e" "6"),
    .probe (.linkWeight "d" 7), .probe (.record "d" 3 .remove), .probe (.record "e" 2 .remove),
    .probe (.record "a" 1 .add), .probe (.notify "x" "0")]

theorem clear_repairs_wreckage :
    let c := (perform wreckage attentive.empty).2
    let last := (Call.run Cache.deliver .clear c).2
    c.lockHeld = false ∧ Call.run Cache.deliver .clear c = (.count 5, c.cleared.2.deliver.2) ∧
      c.Purged c.cleared.2 ∧ last.told = [⟨"x", "0"⟩] ∧ last.check = .ok () := by
  have hfound : (perform wreckage attentive.empty).2.engine.found.length = 5 := by cbv
  have hqueue : (perform wreckage attentive.empty).2.told ++
      (perform wreckage attentive.empty).2.relay.queue = [⟨"x", "0"⟩] := by cbv
  have hsilent : ((Call.run Cache.deliver .clear
      (perform wreckage attentive.empty).2).2.relay.notices.drop
        (perform wreckage attentive.empty).2.relay.notices.length).all
        (fun notice => (notice.reaction.getD []).isEmpty) = true := by cbv
  obtain ⟨hlock, hrun, hpurged, _, _, hlast⟩ :=
    clear_repairs (s := attentive) rfl wreckage
  obtain ⟨_, htold, hcheck⟩ := hlast fun notice hm =>
    List.isEmpty_iff.mp (List.all_eq_true.mp hsilent notice hm)
  exact ⟨hlock, hfound ▸ hrun, hpurged, htold.trans hqueue, hcheck⟩

def gossip : Settings :=
  { capacity := 1,
    listener := some { scripts := [("x", [[.call (.put "y" "2"), .call (.put "z" "3")]])] } }

/-- A linked node loses its mapping while its removal is pending. -/
def stray : List Op :=
  [.call (.put "a" "1"), .probe (.record "a" 0 .remove), .probe (.unmap "a"),
    .probe (.notify "x" "0")]

/-- Not every linked node is retired: the removal of one that is not mapped leaves it alive and out
of reach. And not only what was queued is delivered: what reactions queue meanwhile is as well. -/
theorem clear_spares_stray :
    (¬ ∀ (s : Settings) (fresh : Cache) (ops : List Op), s.build = .ok fresh →
        let c := (perform ops fresh).2
        c.lockHeld = false → ∀ id ∈ c.engine.deque.order,
          (Call.run Cache.deliver .clear c).2.engine.pool.held id = none) ∧
      ¬ ∀ (s : Settings) (fresh : Cache) (ops : List Op), s.build = .ok fresh →
        let c := (perform ops fresh).2
        c.lockHeld = false →
          (Call.run Cache.deliver .clear c).2.told = c.told ++ c.relay.queue := by
  have hlock : (perform stray gossip.empty).2.lockHeld = false := by cbv
  constructor
  · intro h
    have hlinked : (perform stray gossip.empty).2.engine.deque.order = [0] := by cbv
    have hlive : ((Call.run Cache.deliver .clear
        (perform stray gossip.empty).2).2.engine.pool.held 0).isSome = true := by cbv
    have hdead := h gossip gossip.empty stray rfl hlock 0 (by simp [hlinked])
    rw [hdead] at hlive
    cases hlive
  · intro h
    have hmore : (Call.run Cache.deliver .clear (perform stray gossip.empty).2).2.told =
        [⟨"x", "0"⟩, ⟨"y", "2"⟩] := by cbv
    have hqueue : (perform stray gossip.empty).2.told ++
        (perform stray gossip.empty).2.relay.queue = [⟨"x", "0"⟩] := by cbv
    have honly := h gossip gossip.empty stray rfl hlock
    rw [hmore, hqueue] at honly
    cases honly

end Cache

end BoundedCache
