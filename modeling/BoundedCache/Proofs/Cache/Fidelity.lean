import Mathlib
import BoundedCache.Proofs.Cache.AtEase

namespace BoundedCache

/-- No answer counts evictions or dropped reads. -/
theorem Call.tally_spares (call : Call) (answer : Answer Step) (n : Counters) :
    (call.tally answer n).evictions = n.evictions ∧
      (call.tally answer n).droppedReads = n.droppedReads := by
  unfold tally
  split <;> exact ⟨rfl, rfl⟩

namespace Cache

def victims (c : Cache) : List Entry := c.drains.flatMap (·.victims)

def failedCalls (c : Cache) : Nat := c.relay.notices.countP (·.payload.isSome)

variable {c c' c'' : Cache} {scope : Scope} {courier : Courier} {ops : List Op}
  {vs ws : List Entry} {e : Entry} {rest : List Entry} {l l' : Listener (List Op)} {n : Nat}

@[simp] theorem victims_drained (c : Cache) :
    c.drained.victims = c.victims ++ (c.engine.run c.capacity).1.victims := by
  unfold drained
  dsimp only
  split
  · simp [victims]
  · rename_i hnot
    simp only [Outcome.notable, Bool.or_eq_true, Bool.not_eq_true', not_or,
      Bool.not_eq_false] at hnot
    rw [List.isEmpty_iff.mp hnot.2, List.append_nil]
    rfl

@[simp] theorem evictions_drained (c : Cache) :
    c.drained.counters.evictions =
      c.counters.evictions + (c.engine.run c.capacity).1.victims.length := by
  unfold drained
  dsimp only
  split
  · rfl
  · rename_i hnot
    simp only [Outcome.notable, Bool.or_eq_true, Bool.not_eq_true', not_or,
      Bool.not_eq_false] at hnot
    rw [List.isEmpty_iff.mp hnot.2]
    rfl

@[simp] theorem droppedReads_drained (c : Cache) :
    c.drained.counters.droppedReads = c.counters.droppedReads := by
  rw [counters_drained]

/-- A relation that looks at relay, drains and counted evictions only, and at whether more reads
were dropped, and holds across a drain. -/
structure Tracks (R : Cache → Cache → Prop) : Prop where
  same : ∀ {c c' : Cache}, c'.relay = c.relay → c'.drains = c.drains →
    c'.counters.evictions = c.counters.evictions →
    c.counters.droppedReads ≤ c'.counters.droppedReads → R c c'
  trans : ∀ {c c' c'' : Cache}, R c c' → R c' c'' → R c c''
  drained : ∀ c : Cache, R c c.drained

theorem Tracks.of_eq {R : Cache → Cache → Prop} (hR : Tracks R) (hr : c'.relay = c.relay)
    (hd : c'.drains = c.drains) (hc : c'.counters = c.counters) : R c c' :=
  hR.same hr hd (by rw [hc]) (by rw [hc])

/-- Such a relation holds across every call, once it holds across the deliveries. -/
theorem Tracks.lawful {R : Cache → Cache → Prop} (hR : Tracks R)
    (hs : courier.Steady scope.Allows)
    (hc : ∀ c : Cache, c.Proper scope.Allows → R c (courier c).2) :
    Lawful scope courier fun _ => R := by
  have hdrain (c : Cache) (hp : c.Proper scope.Allows) : R c (c.drain courier) :=
    hR.trans (hR.drained c) (hc _ ((Evolves.drained c).proper hp))
  refine ⟨fun _ => hR.of_eq rfl rfl rfl, fun _ _ => hR.trans, ?_, ?_, ?_⟩
  · intro call answer c c' _ hp hperforms
    have hcount (answer : Answer Step) : R c (c.count (call.tally answer)) :=
      have ⟨he, hd⟩ := call.tally_spares answer c.counters
      hR.same rfl rfl he (Nat.le_of_eq hd.symm)
    have hwrites {answer : Answer Step} {event : Event} {next : Cache}
        (hw : c.Writes call answer event next) : R c next := by
      obtain ⟨he, hd⟩ := call.tally_spares answer c.counters
      rw [← hw.counters_eq] at he hd
      exact hR.same hw.relay_eq hw.unrecorded.2 he (Nat.le_of_eq hd.symm)
    cases hperforms with
    | idle => exact hcount answer
    | reads =>
      refine hR.trans (hcount answer) ?_
      unfold recordRead
      split
      · exact hR.of_eq rfl rfl rfl
      · exact hR.same rfl rfl rfl (Nat.le_succ _)
    | writes hw hr =>
      exact hR.trans (hwrites hw) (recordWrite_rel (fun _ => hR.of_eq rfl rfl rfl)
        (fun _ _ => hR.trans) (fun _ _ => hR.of_eq rfl rfl rfl) hdrain hs
        (hw.evolves.proper hp) hr)
    | stuck hw => exact hwrites hw
    | waits => exact hR.of_eq rfl rfl rfl
    | @setCapacity capacity =>
      have hcap : R c { c with capacity } := hR.of_eq rfl rfl rfl
      exact hR.trans hcap (hdrain _ ((Evolves.recap c capacity).proper hp))
    | cleanUp => exact hdrain c hp
    | clear =>
      have hcleared : R c c.cleared.2 := by
        rw [cleared_eq]
        exact hR.of_eq rfl rfl rfl
      exact hR.trans hcleared (hc _ ((Evolves.cleared c).proper hp))
  · intro key stripe kind c _ hp
    rcases probe_record_cases hp.paired courier key stripe kind with he | ⟨id, last, b, _, _, he⟩
    · rw [he]
      exact hR.of_eq rfl rfl rfl
    · rw [he]
      exact hR.of_eq rfl rfl rfl
  · intro ds c c' _ _ h
    have hlock : R c { c with lockHeld := true } := hR.of_eq rfl rfl rfl
    exact hR.trans hlock (hR.trans h (hR.of_eq rfl rfl rfl))

/-- Nobody was told of anything, and what was evicted waits at the end of the queue. -/
structure Withholds (vs : List Entry) (c c' : Cache) : Prop where
  enabled : c'.relay.enabled = c.relay.enabled
  notices : c'.relay.notices = c.relay.notices
  failures : c'.relay.failures = c.relay.failures
  queue : c.relay.enabled = true → c'.relay.queue = c.relay.queue ++ vs
  victims : c'.victims = c.victims ++ vs
  evictions : c'.counters.evictions = c.counters.evictions + vs.length
  drops : c.counters.droppedReads ≤ c'.counters.droppedReads

/-- What was evicted was appended to what the listener was told of and what waits. -/
structure Relays (vs : List Entry) (c c' : Cache) : Prop where
  enabled : c'.relay.enabled = c.relay.enabled
  failures : c'.relay.failures + c.failedCalls = c.relay.failures + c'.failedCalls
  told : c.relay.enabled = true →
    c'.told ++ c'.relay.queue = c.told ++ c.relay.queue ++ vs
  victims : c'.victims = c.victims ++ vs
  evictions : c'.counters.evictions = c.counters.evictions + vs.length
  drops : c.counters.droppedReads ≤ c'.counters.droppedReads

theorem Withholds.trans (h : Withholds vs c c') (h' : Withholds ws c' c'') :
    Withholds (vs ++ ws) c c'' where
  enabled := h'.enabled.trans h.enabled
  notices := h'.notices.trans h.notices
  failures := h'.failures.trans h.failures
  queue he := by rw [h'.queue (h.enabled.trans he), h.queue he, List.append_assoc]
  victims := by rw [h'.victims, h.victims, List.append_assoc]
  evictions := by rw [h'.evictions, h.evictions, List.length_append, Nat.add_assoc]
  drops := Nat.le_trans h.drops h'.drops

theorem Relays.trans (h : Relays vs c c') (h' : Relays ws c' c'') : Relays (vs ++ ws) c c'' where
  enabled := h'.enabled.trans h.enabled
  failures := by
    have hfirst := h.failures
    have hsecond := h'.failures
    omega
  told he := by rw [h'.told (h.enabled.trans he), h.told he, List.append_assoc]
  victims := by rw [h'.victims, h.victims, List.append_assoc]
  evictions := by rw [h'.evictions, h.evictions, List.length_append, Nat.add_assoc]
  drops := Nat.le_trans h.drops h'.drops

theorem Withholds.relays (h : Withholds vs c c') : Relays vs c c' where
  enabled := h.enabled
  failures := by rw [h.failures, failedCalls, failedCalls, h.notices]
  told he := by rw [told, told, h.notices, h.queue he, List.append_assoc]
  victims := h.victims
  evictions := h.evictions
  drops := h.drops

theorem Withholds.of_eq (hr : c'.relay = c.relay) (hd : c'.drains = c.drains)
    (he : c'.counters.evictions = c.counters.evictions)
    (hdrops : c.counters.droppedReads ≤ c'.counters.droppedReads) : Withholds [] c c' where
  enabled := by rw [hr]
  notices := by rw [hr]
  failures := by rw [hr]
  queue _ := by rw [hr, List.append_nil]
  victims := by rw [Cache.victims, Cache.victims, hd, List.append_nil]
  evictions := he
  drops := hdrops

/-- A drain queues its victims. -/
theorem withholds_drained (c : Cache) :
    Withholds (c.engine.run c.capacity).1.victims c c.drained where
  enabled := (Evolves.drained c).enabled
  notices := notices_drained c
  failures := by
    rw [relay_drained, Relay.enqueueAll_eq]
    split <;> rfl
  queue he := by rw [relay_drained, Relay.enqueueAll_eq, if_pos he]
  victims := victims_drained c
  evictions := evictions_drained c
  drops := Nat.le_of_eq (droppedReads_drained c).symm

theorem tracks_withholds : Tracks fun c c' => ∃ vs, Withholds vs c c' where
  same hr hd he hdrops := ⟨[], .of_eq hr hd he hdrops⟩
  trans := fun ⟨_, h⟩ ⟨_, h'⟩ => ⟨_, h.trans h'⟩
  drained c := ⟨_, withholds_drained c⟩

theorem tracks_relays : Tracks fun c c' => ∃ vs, Relays vs c c' where
  same hr hd he hdrops := ⟨[], (Withholds.of_eq hr hd he hdrops).relays⟩
  trans := fun ⟨_, h⟩ ⟨_, h'⟩ => ⟨_, h.trans h'⟩
  drained c := ⟨_, (withholds_drained c).relays⟩

/-- While a delivery is in progress nobody is told of anything. -/
theorem lawful_withholds (scope : Scope) :
    Lawful scope Courier.busy fun _ c c' => ∃ vs, Withholds vs c c' :=
  tracks_withholds.lawful Courier.steady_busy fun _ _ => tracks_withholds.of_eq rfl rfl rfl

/-- The listener is told of the first entry of the queue; what its reaction evicts goes to the
end. -/
theorem relays_tell (hq : c.relay.queue = e :: rest) (hp : c.Proper scope.Allows)
    (hl : l.Stocks scope.Allows) : ∃ vs, Relays vs c ((c.dequeue rest).tell l e) := by
  -- Across the reaction alone nothing is told, so the entry is the next to be logged.
  have hlogged {vs : List Entry} {c' : Cache} (reaction : Option (List Step))
      (payload : Option Payload) (h : Withholds vs (c.dequeue rest) c') :
      Relays vs c { c' with relay := c'.relay.log ⟨e, reaction, payload⟩ } := by
    have hnotices : c'.relay.notices = c.relay.notices := h.notices
    have hfailures : c'.relay.failures = c.relay.failures := h.failures
    refine ⟨h.enabled, ?_, fun he => ?_, h.victims, h.evictions, h.drops⟩
    · simp only [failedCalls, Relay.log, hnotices, hfailures, List.countP_append,
        List.countP_singleton]
      split <;> omega
    · have hqueue : c'.relay.queue = rest ++ vs := h.queue he
      simp only [told, Relay.log, hnotices, hqueue, hq, List.map_append, List.map_cons,
        List.map_nil, List.append_assoc, List.cons_append, List.nil_append]
  cases hs : (l.respond e).1.script with
  | none =>
    rw [tell_of_silent hs]
    exact ⟨[], hlogged none _ (.of_eq rfl rfl rfl (Nat.le_refl _))⟩
  | some script =>
    have hscript := (Listener.stocks_respond hl e).1 script hs
    have hdequeue : (c.dequeue rest).Proper scope.Allows := ⟨hp.paired, hp.stocked⟩
    obtain ⟨vs, h⟩ := (Op.runAll_spec (lawful_withholds scope) Courier.steady_busy script
      (c.dequeue rest) hscript hdequeue).2
    rw [tell_of_script hs]
    exact ⟨vs, hlogged _ _ h⟩

theorem Deliveries.relays (h : Deliveries l c n l' c') (hp : c.Proper scope.Allows)
    (hl : l.Stocks scope.Allows) : ∃ vs, Relays vs c c' := by
  induction h with
  | done => exact tracks_relays.of_eq rfl rfl rfl
  | next hq _ ih =>
    have htell := relays_tell hq hp hl
    have hp' := (tell_evolves hq hp hl).proper hp
    exact tracks_relays.trans htell (ih hp' (Listener.stocks_respond hl _).2)

/-- A delivery loses nothing and repeats nothing. -/
theorem relays_deliver (hp : c.Proper scope.Allows) : ∃ vs, Relays vs c c.deliver.2 := by
  rcases deliver_cases c with ⟨_, hd⟩ | ⟨l, n, l', c', hl, hdel, hd⟩
  · rw [hd]
    exact tracks_relays.of_eq rfl rfl rfl
  · have haway : (c.withListener none).Proper scope.Allows :=
      ⟨hp.paired, stocked_away _ c⟩
    obtain ⟨vs, h⟩ := hdel.relays haway (hp.stocked l hl)
    rw [hd]
    exact ⟨vs, h.enabled, h.failures, h.told, h.victims, h.evictions, h.drops⟩

/-- The listener has been told of exactly what was evicted, once and in that order, and its calls
are counted. -/
structure Faithful (c : Cache) : Prop where
  delivered : c.relay.queue = []
  told : c.told = c.victims
  calls : c.relay.notices.length = c.metrics.evictions
  failures : c.failedCalls = c.metrics.listenerFailures

variable {s : Settings} {fresh : Cache}

end Cache

end BoundedCache
