import BoundedCache.Proofs.Cache.Consistency
import BoundedCache.Proofs.Engine.Eviction
import BoundedCache.Proofs.Lru.Follows

namespace BoundedCache

def Listener.Passive {σ : Type} (l : Listener σ) : Prop := l.Stocks fun _ => False

namespace Engine

variable {e : Engine} {capacity : Nat}

/-- A drain of reads evicts nothing, as no weight changes. -/
theorem run_of_reads (hd : e.deque.WellFormed) (hs : e.buffers.Sound)
    (hr : ∀ ev ∈ e.buffers.events, ev.kind = .read) (hfits : e.deque.weightedSize ≤ capacity) :
    e.run capacity = (⟨e.buffers.events.length, []⟩,
      { e.applyAll e.buffers.events with buffers := e.buffers.emptied }) := by
  rw [← (applyAll_reads hd hr).2] at hfits
  have hnone := evict_of_fits
    (e := { e.applyAll e.buffers.events with buffers := e.buffers.emptied }) hfits
  rw [run, replay_eq _ hs]
  dsimp only
  rw [hnone]

end Engine

namespace Cache

variable {c c' c'' : Cache} {event : Event} {b : Buffers} {l l' : Listener (List Op)} {n : Nat}
  {victims later : List Entry}

def Quiet (c : Cache) : Prop := c.Proper fun _ => False

theorem Quiet.proper (h : c.Quiet) (P : List Op → Prop) : c.Proper P :=
  ⟨h.paired, fun l hl p hp script hs => (h.stocked l hl p hp script hs).elim⟩

/-- From `c` to `c'` these pairs were evicted, and a listener was told of them. -/
structure Evicts (c c' : Cache) (victims : List Entry) : Prop where
  told : c'.told = c.told ++ if c.relay.enabled then victims else []
  drains : ∃ drains, c'.drains = c.drains ++ drains ∧ drains.flatMap (·.victims) = victims

theorem Evicts.of_eq (hn : c'.relay.notices = c.relay.notices) (hd : c'.drains = c.drains) :
    c.Evicts c' [] where
  told := by simp [Cache.told, hn]
  drains := ⟨[], by rw [hd, List.append_nil], rfl⟩

theorem Evicts.trans (h : c.Evicts c' victims) (he : c'.relay.enabled = c.relay.enabled)
    (h' : c'.Evicts c'' later) : c.Evicts c'' (victims ++ later) := by
  obtain ⟨drains, hd, hv⟩ := h.drains
  obtain ⟨drains', hd', hv'⟩ := h'.drains
  refine ⟨?_, drains ++ drains', ?_, ?_⟩
  · rw [h'.told, h.told, he, List.append_assoc]
    split <;> rfl
  · rw [hd', hd, List.append_assoc]
  · rw [List.flatMap_append, hv, hv']

/-- A delivery that runs no script tells the listener of the queue and does no more. -/
theorem Deliveries.passive (h : Deliveries l c n l' c') (hl : l.Passive) :
    ∃ r, c' = { c with relay := r } ∧ r.notices.map (·.entry) = c.told ++ c.relay.queue := by
  induction h with
  | @done l c queue => exact ⟨c.relay, rfl, by rw [queue, List.append_nil]; rfl⟩
  | @next l l' c c' e rest n queue _ ih =>
    obtain ⟨hscript, hstocks⟩ := Listener.stocks_respond hl e
    have hsilent : (l.respond e).1.script = none :=
      Option.eq_none_iff_forall_not_mem.mpr fun script hm => hscript script hm
    obtain ⟨r, rfl, hr⟩ := ih hstocks
    rw [tell_of_silent hsilent] at hr ⊢
    refine ⟨r, rfl, hr.trans ?_⟩
    simp [told, Relay.log, dequeue, queue]

/-- A delivery changes the relay and nothing else, and tells of all that is queued. -/
theorem deliver_quiet (h : c.Quiet) :
    ∃ r, c.deliver.2 = { c with relay := r } ∧
      (c.Attended → r.notices.map (·.entry) = c.told ++ c.relay.queue) := by
  rcases deliver_cases c with ⟨hl, hd⟩ | ⟨l, n, l', c', hl, hdel, hd⟩
  · refine ⟨c.relay, by rw [hd], fun ha => ?_⟩
    rw [ha.queue (by rw [ha.listener, hl]; rfl), List.append_nil]
    rfl
  · obtain ⟨r, rfl, hr⟩ := hdel.passive (h.stocked l hl)
    exact ⟨{ r with listener := some l' }, by rw [hd]; rfl, fun _ => hr⟩

/-- A drain shows the victims of the engine. -/
theorem drain_quiet (h : c.Quiet) (ha : c.AtEase) :
    (c.drain Cache.deliver).engine = (c.engine.run c.capacity).2 ∧
      (c.drain Cache.deliver).capacity = c.capacity ∧
      c.Evicts (c.drain Cache.deliver) (c.engine.run c.capacity).1.victims := by
  obtain ⟨r, hr, htells⟩ := deliver_quiet (c := c.drained) ((Evolves.drained c).proper h)
  have htold := htells ha.attended.drained
  have hqueue : c.drained.relay.queue =
      if c.relay.enabled then (c.engine.run c.capacity).1.victims else [] := by
    rw [relay_drained, Relay.enqueueAll_eq]
    split
    · rw [ha.queue, List.nil_append]
    · exact ha.queue
  rw [drain, hr]
  refine ⟨engine_drained c, capacity_drained c, ?_, ?_⟩
  · refine htold.trans ?_
    rw [hqueue, told, notices_drained]
    rfl
  · show ∃ drains, c.drained.drains = _ ∧ _
    unfold drained
    dsimp only
    split
    · exact ⟨[_], rfl, List.append_nil _⟩
    · rename_i hidle
      have hnone : (c.engine.run c.capacity).1.victims = [] := by
        simp only [Outcome.notable, Bool.or_eq_true, not_or] at hidle
        simpa using hidle.2
      exact ⟨[], (List.append_nil _).symm, hnone.symm⟩

/-- A writer that has got its event in drains, and that is all. -/
theorem settled_quiet (h : c.Quiet) (ha : c.AtEase) (hd : c.Drainable)
    (hlone : c.engine.buffers.Lone) (hb : c.engine.buffers.recordOwn event = .ok b) :
    ∃ b', (∀ i, b'.queue i = []) ∧
      let evicted := Engine.evict
        { c.engine.applyAll (c.engine.buffers.events ++ [event]) with buffers := b' } c.capacity
      (c.settled Cache.deliver b).engine = evicted.2 ∧
        (c.settled Cache.deliver b).capacity = c.capacity ∧
        c.Evicts (c.settled Cache.deliver b) evicted.1 := by
  have hsound := Buffers.sound_record hd.sound hb
  have hevents := (hlone.record hb).2
  let recorded : Cache := { c with engine := { c.engine with buffers := b } }
  have hsettled : c.settled Cache.deliver b = recorded.drain Cache.deliver := by
    have hfree : ¬ recorded.lockHeld = true := hd.free
    unfold settled tryDrain
    dsimp only
    rw [if_pos (Buffers.drainRequired_record hd.sound hb), if_neg hfree]
  have hquiet : recorded.Quiet := (Evolves.rebuffer hb).proper h
  obtain ⟨hengine, hcapacity, hevicts⟩ := drain_quiet hquiet (ha.of_eq rfl)
  have hrun : recorded.engine.replay.2 =
      { c.engine.applyAll (c.engine.buffers.events ++ [event]) with buffers := b.emptied } := by
    rw [Engine.replay_eq _ hsound, ← hevents]
    exact congrArg (fun e : Engine => { e with buffers := b.emptied })
      (Engine.applyAll_withBuffers c.engine b b.events)
  refine ⟨b.emptied, fun i => Buffers.queue_emptied b i, ?_⟩
  rw [hsettled, ← hrun]
  exact ⟨hengine, hcapacity, hevicts.told, hevicts.drains⟩

/-- What a write leaves of a cache with only reads pending: its event is replayed behind them. If
the buffer is full a drain replays the reads beforehand, and evicts nothing as no weight has
changed. -/
theorem recordWrite_quiet (h : c.Quiet) (ha : c.AtEase) (ht : c.Tidy [event])
    (hlone : c.engine.buffers.Lone) :
    ∃ c' b, c.recordWrite Cache.deliver event = some c' ∧ (∀ i, b.queue i = []) ∧
      let evicted := Engine.evict
        { c.engine.applyAll (c.engine.buffers.events ++ [event]) with buffers := b } c.capacity
      c'.engine = evicted.2 ∧ c'.capacity = c.capacity ∧ c.Evicts c' evicted.1 := by
  unfold recordWrite recordWithin
  cases hb : c.engine.buffers.recordOwn event with
  | ok b =>
    obtain ⟨b', hempty, hsettled⟩ := settled_quiet h ha ht.toDrainable hlone hb
    exact ⟨_, b', rfl, hempty, hsettled⟩
  | error back =>
    cases Buffers.eq_of_record_eq_error hb
    -- The drain before the second attempt.
    obtain ⟨hengine, hcapacity, hevicts⟩ := drain_quiet h ha
    have hevolves : c.Evolves (c.drain Cache.deliver) :=
      Evolves.drain (steady_deliver .uncontended) (h.proper _)
    have hrun := Engine.run_of_reads ht.accounted.deque ht.sound ht.reads (ht.published ▸ ht.fits)
    rw [hrun] at hengine hevicts
    have hsound : (c.drain Cache.deliver).engine.buffers.Sound := by
      rw [hengine]
      exact Buffers.sound_emptied _
    have hdrainable := ht.toDrainable.evolves hevolves hsound
    have hlone' : (c.drain Cache.deliver).engine.buffers.Lone := by
      intro i _
      rw [hengine]
      exact Buffers.queue_emptied _ i
    have hroom : ∃ b, (c.drain Cache.deliver).engine.buffers.recordOwn event = .ok b := by
      rw [hengine]
      exact Buffers.exists_recordOwn_emptied ht.count ht.room event
    obtain ⟨b, hb'⟩ := hroom
    obtain ⟨b', hempty, hsettled, hcap, hlater⟩ := settled_quiet (hevolves.proper h)
      (ha.drain (h.proper Scope.uncontended.Allows)) hdrainable hlone' hb'
    have happly : ({ (c.drain Cache.deliver).engine.applyAll
        ((c.drain Cache.deliver).engine.buffers.events ++ [event]) with buffers := b' } : Engine) =
        { c.engine.applyAll (c.engine.buffers.events ++ [event]) with buffers := b' } := by
      rw [hengine, Buffers.events_emptied, List.nil_append, Engine.applyAll_withBuffers,
        Engine.applyAll_append]
    rw [happly, hcapacity] at hsettled hlater
    refine ⟨(c.drain Cache.deliver).settled Cache.deliver b, b', ?_, hempty, hsettled,
      hcap.trans hcapacity, hevicts.trans hevolves.enabled hlater⟩
    dsimp only
    rw [if_neg ht.free, recordWithin, hb']
    rfl

end Cache

end BoundedCache
