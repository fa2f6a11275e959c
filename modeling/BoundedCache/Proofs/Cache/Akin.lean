import BoundedCache.Proofs.Cache.Deliver
import BoundedCache.Proofs.Engine.Akin
import BoundedCache.Proofs.Engine.Clear

namespace BoundedCache

namespace Cache

/-- The same cache up to slots, counters and logs. -/
structure Akin (c c' : Cache) : Prop where
  engine : c.engine.Akin c'.engine
  sound : c.engine.buffers.Sound
  weigher : c'.weigher = c.weigher
  capacity : c'.capacity = c.capacity
  lock : c'.lockHeld = c.lockHeld
  published : c'.published = c.published
  enabled : c'.relay.enabled = c.relay.enabled
  listener : c'.relay.listener = c.relay.listener
  queue : c'.relay.queue = c.relay.queue

end Cache

variable {c c' : Cache} {b : Buffers} {event : Event} {l : Listener (List Op)} {scope : Scope}

namespace Cache

namespace Akin

/-- A call decides on the same in both. -/
theorem alike (h : c.Akin c') : c.Alike c' := ⟨h.engine.pool_eq, h.engine.store_eq, h.weigher⟩

theorem live_eq (h : c.Akin c') : c'.engine.live = c.engine.live := by
  rw [Engine.live, Engine.live, h.engine.pool_eq, h.engine.store_eq]

/-- The recency order with its weights. -/
theorem order_eq (h : c.Akin c') :
    c'.order.map (fun p => (p.key, p.weight)) = c.order.map fun p => (p.key, p.weight) := by
  have hsame := congrArg (List.map fun p : NodeId × Weight => (c.engine.pool.key p.1, p.2))
    h.engine.deque.same
  rw [Deque.contents, Deque.contents, List.map_map, List.map_map] at hsame
  rw [Cache.order, Cache.order, List.map_map, List.map_map, h.engine.pool_eq]
  exact hsame

theorem count (h : c.Akin c') (f f' : Counters → Counters) : (c.count f).Akin (c'.count f') :=
  { h with }

theorem withEngine (h : c.Akin c') {e e' : Engine} (he : e.Akin e') (hs : e.buffers.Sound) :
    Akin { c with engine := e } { c' with engine := e' } :=
  { h with engine := he, sound := hs }

theorem rebuffer {i : Nat} (h : c.Akin c') (hb : c.engine.buffers.record i event = .ok b) :
    Akin { c with engine := { c.engine with buffers := b } }
      { c' with engine := { c'.engine with buffers := b } } :=
  h.withEngine (h.engine.withBuffers b) (Buffers.sound_record h.sound hb)

/-- What was still to be replayed plays no part in a drain. -/
theorem drained_of_replay (hs : c.engine.buffers.Sound)
    (hreplay : c.engine.replay.2.Akin c'.engine.replay.2) (hweigher : c'.weigher = c.weigher)
    (hcapacity : c'.capacity = c.capacity) (hlock : c'.lockHeld = c.lockHeld)
    (henabled : c'.relay.enabled = c.relay.enabled)
    (hlistener : c'.relay.listener = c.relay.listener)
    (hqueue : c'.relay.queue = c.relay.queue) : c.drained.Akin c'.drained := by
  obtain ⟨hvictims, hevict⟩ := hreplay.evict c.capacity
  constructor
  · rw [engine_drained, engine_drained, hcapacity]
    exact hevict
  · rw [buffers_drained hs]
    exact Buffers.sound_emptied _
  · rw [weigher_drained, weigher_drained, hweigher]
  · rw [capacity_drained, capacity_drained, hcapacity]
  · rw [lockHeld_drained, lockHeld_drained, hlock]
  · rw [published_drained, published_drained, engine_drained, engine_drained, hcapacity]
    exact hevict.deque.weightedSize_eq
  · rw [(Evolves.drained c).enabled, (Evolves.drained c').enabled, henabled]
  · rw [listener_drained, listener_drained, hlistener]
  · have hsame : (c'.engine.run c.capacity).1.victims = (c.engine.run c.capacity).1.victims :=
      hvictims
    rw [relay_drained, relay_drained, Relay.enqueueAll_eq, Relay.enqueueAll_eq, hcapacity, hsame,
      henabled]
    split
    · exact congrArg (· ++ _) hqueue
    · exact hqueue

theorem drained (h : c.Akin c') : c.drained.Akin c'.drained :=
  drained_of_replay h.sound (h.engine.replay h.sound) h.weigher h.capacity h.lock h.enabled
    h.listener h.queue

theorem tryDrain (h : c.Akin c') : (c.tryDrain Courier.busy).Akin (c'.tryDrain Courier.busy) := by
  unfold Cache.tryDrain
  rw [h.lock]
  split
  · exact h
  · exact h.drained

theorem cleared (h : c.Akin c') : c'.cleared.1 = c.cleared.1 ∧ c.cleared.2.Akin c'.cleared.2 := by
  obtain ⟨hcount, hclear⟩ := h.engine.clear h.sound
  have hsound : c.engine.clear.2.buffers.Sound := by
    rw [Engine.buffers_clear h.sound]
    exact Buffers.sound_emptied _
  rw [cleared_eq, cleared_eq]
  generalize c.engine.clear = result at hcount hclear hsound ⊢
  generalize c'.engine.clear = result' at hcount hclear ⊢
  exact ⟨hcount, { h with
    engine := hclear, sound := hsound, published := hclear.deque.weightedSize_eq }⟩

theorem recordRead (h : c.Akin c') (id : NodeId) : (c.recordRead id).Akin (c'.recordRead id) := by
  unfold Cache.recordRead
  rw [h.engine.buffers_eq]
  cases hb : c.engine.buffers.recordOwn ⟨.read, id⟩ with
  | ok b => exact h.rebuffer hb
  | error back => exact h.count _ _

theorem settled (h : c.Akin c') (hb : c.engine.buffers.recordOwn event = .ok b) :
    (c.settled Courier.busy b).Akin (c'.settled Courier.busy b) := by
  unfold Cache.settled
  dsimp only
  split
  · exact (h.rebuffer hb).tryDrain
  · exact h.rebuffer hb

/-- A writer gets its event in with both or with none. -/
theorem recordWithin (h : c.Akin c') (event : Event) (n : Nat) :
    (c.recordWithin Courier.busy event n = none ∧ c'.recordWithin Courier.busy event n = none) ∨
      ∃ d d', c.recordWithin Courier.busy event n = some d ∧
        c'.recordWithin Courier.busy event n = some d' ∧ d.Akin d' := by
  induction n generalizing c c' with
  | zero => exact Or.inl ⟨rfl, rfl⟩
  | succ n ih =>
    unfold Cache.recordWithin
    rw [h.engine.buffers_eq]
    cases hb : c.engine.buffers.recordOwn event with
    | ok b => exact Or.inr ⟨_, _, rfl, rfl, h.settled hb⟩
    | error back =>
      cases Buffers.eq_of_record_eq_error hb
      dsimp only
      rw [h.lock]
      split
      · exact Or.inl ⟨rfl, rfl⟩
      · exact ih h.drained

/-- What is done with an intent does not tell them apart. -/
theorem run (h : c.Akin c') (call : Call) (i : Intent) :
    (i.run Courier.busy call c).2.Akin (i.run Courier.busy call c').2 := by
  cases i with
  | idle => exact h.count _ _
  | look => exact h
  | read answer id => exact (h.count _ _).recordRead id
  | write answer event p s =>
    have hwritten : (Intent.written call answer p s c).Akin (Intent.written call answer p s c') :=
      (h.withEngine (h.engine.rewrite p s) h.sound).count _ _
    have hleft : (Intent.written call answer p s c').scriptsLeft =
        (Intent.written call answer p s c).scriptsLeft := by
      rw [scriptsLeft, hwritten.listener, scriptsLeft]
    simp only [Intent.run, recordWrite]
    rw [hleft]
    rcases hwritten.recordWithin event ((Intent.written call answer p s c).scriptsLeft + 2) with
      ⟨hn, hn'⟩ | ⟨d, d', hs, hs', hd⟩
    · rw [hn, hn']
      exact hwritten
    · rw [hs, hs']
      exact hd
  | resize capacity =>
    have hcap : Akin { c with capacity } { c' with capacity } := { h with capacity := rfl }
    simp only [Intent.run]
    split
    · rw [if_pos (h.lock.trans ‹_›)]
      exact h
    · rw [if_neg (h.lock ▸ ‹_›)]
      exact hcap.drained
  | tidy =>
    simp only [Intent.run]
    split
    · rw [if_pos (h.lock.trans ‹_›)]
      exact h
    · rw [if_neg (h.lock ▸ ‹_›)]
      exact h.drained
  | empty =>
    simp only [Intent.run]
    split
    · rw [if_pos (h.lock.trans ‹_›)]
      exact h
    · rw [if_neg (h.lock ▸ ‹_›)]
      exact h.cleared.2

end Akin

end Cache

open Cache

/-- A call that nothing comes between does not tell them apart. -/
theorem Call.run_akin (call : Call) (h : c.Akin c') (hp : c.engine.Paired) :
    (call.run Courier.busy c).2.Akin (call.run Courier.busy c').2 := by
  obtain ⟨i, _, hrun⟩ := call.run_decides hp
  have hi : call.run Courier.busy c = i.run Courier.busy call c := hrun Courier.busy c (.refl c)
  have hi' : call.run Courier.busy c' = i.run Courier.busy call c' := hrun Courier.busy c' h.alike
  rw [hi, hi']
  exact h.run call i

mutual

/-- Operations that a reaction makes do not tell them apart. -/
theorem Op.run_akin (hrecord : ∀ kind, scope.record kind = false) :
    ∀ op : Op, op.within scope = true → ∀ c c' : Cache, c.Proper scope.Allows → c.Akin c' →
      (op.run Courier.busy c).2.Akin (op.run Courier.busy c').2
  | .call request, _ => by
    intro c c' hp h
    simp only [Op.run]
    exact request.run_akin h hp.paired
  | .probe (.record _ _ kind), hw => by
    rw [Op.within, hrecord kind] at hw
    cases hw
  | .interrupted request meanwhile, hw => by
    intro c c' hp h
    rw [Op.within, Bool.and_eq_true] at hw
    unfold Op.run
    rcases request.start_begins hp.paired with ⟨i, _, hrun⟩ | ⟨s, hs, hrun⟩
    · simp only [hrun Courier.busy c (.refl c), hrun Courier.busy c' h.alike]
      exact h.run request i
    · simp only [hrun Courier.busy c (.refl c), hrun Courier.busy c' h.alike]
      have hgap := Op.runAll_evolves Courier.steady_busy meanwhile c hw.2 hp
      have hlater := Op.runAll_akin hrecord meanwhile hw.2 c c' hp h
      obtain ⟨i, _, hrun⟩ := Suspended.resume_decides (hgap.fits hs) (hgap.proper hp).paired
      have hi : s.resume Courier.busy _ = i.run Courier.busy request _ :=
        hrun Courier.busy _ (.refl _)
      have hi' : s.resume Courier.busy _ = i.run Courier.busy request _ :=
        hrun Courier.busy _ hlater.alike
      rw [hi, hi']
      exact hlater.run request i
  | .hold ops, hw => by
    intro c c' hp h
    rw [Op.within, Bool.and_eq_true] at hw
    have hlock := h.lock
    have hlocked : Akin { c with lockHeld := true } { c' with lockHeld := true } :=
      { h with lock := rfl }
    have hrun := Op.runAll_akin hrecord ops hw.2 _ _ hp.underLock hlocked
    exact { hrun with lock := hlock }
  | .contended ops, hw => fun c c' hp h => Op.runAll_akin hrecord ops hw c c' hp h

theorem Op.runAll_akin (hrecord : ∀ kind, scope.record kind = false) :
    ∀ ops : List Op, Op.allWithin scope ops = true → ∀ c c' : Cache, c.Proper scope.Allows →
      c.Akin c' → (Op.runAll Courier.busy ops c).2.Akin (Op.runAll Courier.busy ops c').2
  | [], _ => fun _ _ _ h => h
  | op :: rest, hw => by
    intro c c' hp h
    rw [Op.allWithin, Bool.and_eq_true] at hw
    have hop := Op.run_evolves Courier.steady_busy op c hw.1 hp
    exact Op.runAll_akin hrecord rest hw.2 _ _ (hop.proper hp) (Op.run_akin hrecord op hw.1 c c' hp h)

end

namespace Cache

/-- The listener is told of the same entry, and reacts in the same way. -/
theorem Akin.tell {e : Entry} (h : c.Akin c') (hp : c.Proper Scope.calls.Allows)
    (hl : l.Stocks Scope.calls.Allows) : (c.tell l e).Akin (c'.tell l e) := by
  cases hs : (l.respond e).1.script with
  | none =>
    rw [tell_of_silent hs, tell_of_silent hs]
    exact { h with }
  | some script =>
    have hscript := (Listener.stocks_respond hl e).1 script hs
    have hrun := Op.runAll_akin (fun _ => rfl) script hscript c c' hp h
    rw [tell_of_script hs, tell_of_script hs]
    exact { hrun with }

/-- A delivery calls the listeners of both for the same pairs. -/
theorem Akin.deliver (h : c.Akin c') (hp : c.Proper Scope.calls.Allows) :
    c.deliver.2.Akin c'.deliver.2 := by
  have haccord : Accord (fun l l' => l' = l ∧ l.Stocks Scope.calls.Allows)
      (fun c c' => c.Akin c' ∧ c.Proper Scope.calls.Allows) := by
    constructor
    case queue => exact fun h => h.1.queue
    case listener =>
      rintro c c' ⟨h, hp⟩
      have hstocked := hp.stocked
      rw [h.listener]
      cases hl : c.relay.listener with
      | none => exact .none
      | some l => exact .some ⟨rfl, hstocked l hl⟩
    case away => exact fun h => ⟨{ h.1 with listener := rfl }, h.2.paired, stocked_away _ _⟩
    case back =>
      rintro c c' l _ ⟨h, hp⟩ ⟨rfl, hl⟩
      exact ⟨{ h with listener := rfl }, hp.paired, fun _ hx => Option.mem_some.mp hx ▸ hl⟩
    case respond =>
      rintro l _ e ⟨rfl, hl⟩
      exact ⟨rfl, (Listener.stocks_respond hl e).2⟩
    case tell =>
      rintro c c' l _ e rest ⟨h, hp⟩ ⟨rfl, hl⟩ hqueue
      have hrest : (c.dequeue rest).Akin (c'.dequeue rest) := { h with queue := rfl }
      exact ⟨hrest.tell ⟨hp.paired, hp.stocked⟩ hl, (tell_evolves hqueue hp hl).proper hp⟩
  exact (haccord.deliver ⟨h, hp⟩).2.1

end Cache

end BoundedCache
