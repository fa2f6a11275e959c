import BoundedCache.Proofs.Cache.AtEase
import BoundedCache.Proofs.Cache.Covered
import BoundedCache.Proofs.Deque.Validate
import BoundedCache.Proofs.Engine.Live

namespace BoundedCache

namespace Cache

/-- Nothing but reads waits in the buffers, apart from what writers have in hand, and the published
size is that of the deque and fits the capacity. -/
structure Tidy (hand : List Event) (c : Cache) : Prop extends Covered hand c, Drainable c where
  reads : ∀ ev ∈ c.engine.buffers.events, ev.kind = .read
  published : c.published = c.engine.deque.weightedSize
  fits : c.published ≤ c.capacity

variable {c c' : Cache} {hand : List Event} {event : Event} {call : Call} {answer : Answer Step}
  {id : NodeId} {last : Held} {courier : Courier} {scope : Scope} {b : Buffers}

namespace Tidy

/-- Counters and relay play no part. -/
theorem of_eq (h : c.Tidy hand) (he : c'.engine = c.engine) (hw : c'.weigher = c.weigher)
    (hl : c'.lockHeld = c.lockHeld) (hp : c'.published = c.published)
    (hc : c'.capacity = c.capacity) : c'.Tidy hand := by
  refine ⟨h.toCovered.of_eq he hw, ?_, ?_, ?_, ?_, ?_, ?_⟩
  · rw [he]
    exact h.room
  · rw [he]
    exact h.count
  · rw [hl]
    exact h.lock
  · rw [he]
    exact h.reads
  · rw [hp, he]
    exact h.published
  · rw [hp, hc]
    exact h.fits

theorem recordRead (h : c.Tidy hand) (hl : c.engine.pool.held id = some last) :
    (c.recordRead id).Tidy hand := by
  have hcovered := h.toCovered.recordRead hl
  unfold Cache.recordRead at hcovered ⊢
  cases hb : c.engine.buffers.recordOwn ⟨.read, id⟩ with
  | ok b =>
    rw [hb] at hcovered
    obtain ⟨_, _, hb'⟩ := Buffers.record_eq_ok hb
    refine ⟨hcovered, ?_, ?_, h.lock, ?_, h.published, h.fits⟩
    · subst hb'
      exact h.room
    · subst hb'
      simpa using h.count
    · intro ev hev
      rcases (Buffers.mem_events_record hb).mp hev with rfl | hev
      · rfl
      · exact h.reads ev hev
  | error back => exact h.of_eq rfl rfl rfl rfl rfl

/-- A write touches neither buffers nor deque. -/
theorem write (h : c.Tidy hand) (hw : c.Writes call answer event c') :
    c'.Tidy (event :: hand) := by
  have hcovered := h.toCovered.write hw
  cases hw <;> exact ⟨hcovered, h.room, h.count, h.lock, h.reads, h.published, h.fits⟩

end Tidy

/-- A drain tidies up. -/
theorem Covered.tidy_drained (h : c.Covered hand) (hd : c.Drainable) : c.drained.Tidy hand := by
  obtain ⟨hcovered, hfits⟩ := h.drained
  have hd' := hd.evolves (Evolves.drained c) hcovered.sound
  refine ⟨hcovered, hd'.room, hd'.count, hd'.lock, ?_, published_drained c, ?_⟩
  · rw [buffers_drained h.sound]
    simp
  · rw [capacity_drained]
    exact hfits

/-- So does a clearing. -/
theorem Covered.tidy_cleared (h : c.Covered hand) (hd : c.Drainable) : c.cleared.2.Tidy hand := by
  obtain ⟨hcovered, hzero⟩ := h.cleared
  have hd' := hd.evolves (Evolves.cleared c) hcovered.sound
  have hbuffers := (h.swap.clear h.sound).2
  rw [cleared_eq] at hcovered hzero hd' ⊢
  generalize c.engine.clear.2 = e at hcovered hzero hd' hbuffers ⊢
  refine ⟨hcovered, hd'.room, hd'.count, hd'.lock, ?_, rfl, ?_⟩
  · rw [hbuffers]
    simp
  · rw [hzero]
    exact Nat.zero_le _

end Cache

def KeepsTidy (_ds : List Deed) (c c' : Cache) : Prop := ∀ hand, c.Tidy hand → c'.Tidy hand

namespace Cache

variable {c c' : Cache} {hand : List Event} {event : Event} {courier : Courier} {scope : Scope}
  {b : Buffers}

structure Minds (scope : Scope) (courier : Courier) : Prop where
  steady : courier.Steady scope.Allows
  frugal : courier.Frugal
  keeps : ∀ c : Cache, c.Proper scope.Allows → KeepsTidy [] c (courier c).2

theorem Minds.drain (hc : Minds scope courier) (hp : c.Proper scope.Allows) (h : c.Covered hand)
    (hd : c.Drainable) : (c.drain courier).Tidy hand :=
  hc.keeps _ ((Evolves.drained c).proper hp) hand (h.tidy_drained hd)

/-- While the lock is free a writer gets its event in, and drains. -/
theorem Minds.recordWrite (hc : Minds scope courier) (hp : c.Proper scope.Allows)
    (h : c.Tidy (event :: hand)) :
    ∃ c', c.recordWrite courier event = some c' ∧ c'.Tidy hand := by
  have hkeeps : ∀ c : Cache, c.Proper scope.Allows ∧ c.Tidy (event :: hand) →
      (c.drain courier).Proper scope.Allows ∧ (c.drain courier).Tidy (event :: hand) :=
    fun c h => ⟨(Evolves.drain hc.steady h.1).proper h.1, hc.drain h.1 h.2.toCovered h.2.toDrainable⟩
  obtain ⟨c', hr⟩ := exists_recordWrite hc.frugal (fun c h => h.2.toDrainable.emptiable) hkeeps ⟨hp, h⟩ event
  refine ⟨c', hr, ?_⟩
  obtain ⟨ready, b, hdrains, hb, rfl⟩ := recordWithin_eq_some hr
  obtain ⟨hp', hready⟩ := hdrains.keeps (fun c _ => hkeeps c) ⟨hp, h⟩
  have hrecorded := hready.toCovered.record hb
  have hdrainable := hready.toDrainable.evolves (Evolves.rebuffer hb) hrecorded.sound
  have hrequired := Buffers.drainRequired_record hready.toCovered.sound hb
  unfold settled tryDrain
  dsimp only
  rw [if_pos hrequired, if_neg hdrainable.free]
  exact hc.drain ((Evolves.rebuffer hb).proper hp') hrecorded hdrainable

/-- Tidy stays tidy across every call, so long as nobody takes the lock. -/
theorem lawful_keepsTidy (hc : Minds scope courier) (hhold : scope.hold = false)
    (hrecord : ∀ kind, scope.record kind = false) : Lawful scope courier KeepsTidy where
  refl _ _ h := h
  trans _ _ h h' hand hc := h' hand (h hand hc)
  call := by
    intro call answer c c' _ hp hperforms hand h
    cases hperforms with
    | idle => exact h.of_eq rfl rfl rfl rfl rfl
    | reads _ _ hl =>
      have hcount : (c.count (call.tally answer)).Tidy hand := h.of_eq rfl rfl rfl rfl rfl
      exact hcount.recordRead hl
    | writes hw hr =>
      obtain ⟨c'', hr', htidy⟩ := hc.recordWrite (hw.evolves.proper hp) (h.write hw)
      cases hr.symm.trans hr'
      exact htidy
    | stuck hw hr =>
      obtain ⟨c'', hr', _⟩ := hc.recordWrite (hw.evolves.proper hp) (h.write hw)
      cases hr.symm.trans hr'
    | waits hlock => exact absurd (h.lock.symm.trans hlock) Bool.false_ne_true
    | @setCapacity capacity =>
      have hcovered : Covered hand { c with capacity } := h.toCovered.of_eq rfl rfl
      have hevolves := Evolves.recap c capacity
      exact hc.drain (hevolves.proper hp) hcovered (h.toDrainable.evolves hevolves h.sound)
    | cleanUp => exact hc.drain hp h.toCovered h.toDrainable
    | clear =>
      exact hc.keeps _ ((Evolves.cleared c).proper hp) hand (h.toCovered.tidy_cleared h.toDrainable)
  record hkind := by simp [hrecord] at hkind
  hold hh := by simp [hhold] at hh

theorem telling_keepsTidy : Telling KeepsTidy where
  away := by
    intro c c' l _ hk hand h
    have hrun := hk hand (h.of_eq rfl rfl rfl rfl rfl)
    exact hrun.of_eq rfl rfl rfl rfl rfl
  notice := by
    intro e rest reaction payload c c' _ _ hk hand h
    have hrun := hk hand (h.of_eq rfl rfl rfl rfl rfl)
    exact hrun.of_eq rfl rfl rfl rfl rfl

theorem minds_busy (scope : Scope) : Minds scope Courier.busy :=
  ⟨Courier.steady_busy, Courier.frugal_busy, fun _ _ _ h => h⟩

theorem minds_deliver (hhold : scope.hold = false) (hrecord : ∀ kind, scope.record kind = false) :
    Minds scope deliver :=
  ⟨steady_deliver scope, frugal_deliver, fun _ hp =>
    (deliver_spec (lawful_keepsTidy (minds_busy scope) hhold hrecord) telling_keepsTidy hp).2⟩

end Cache

def Scope.uncontended : Scope := {}

/-- What can be relied on between two calls. -/
structure Cache.Consistent (c : Cache) : Prop where
  lockFree : c.lockHeld = false
  reads : ∀ ev ∈ c.engine.buffers.events, ev.kind = .read
  delivered : c.relay.queue = []
  valid : c.engine.deque.validate = .ok ()
  mappedOnce : c.engine.store.nodes.Nodup
  linkedOnce : (c.engine.deque.toList.map (·.node)).Nodup
  paired : ∀ id, id ∈ c.engine.store.nodes ↔ id ∈ c.engine.deque.toList.map (·.node)
  weighed : ∀ l ∈ c.engine.deque.toList, ∃ held, c.engine.pool.held l.node = some held ∧
    c.weigher held.value = .ok l.weight
  size : c.published = (c.engine.live.map fun pair => c.weigher.weight pair.value).sum
  fits : c.published ≤ c.capacity

namespace Cache

variable {c fresh : Cache} {s : Settings} {ops : List Op}

theorem Tidy.consistent (h : c.Tidy []) (hq : c.relay.queue = []) : c.Consistent where
  lockFree := h.lock
  reads := h.reads
  delivered := hq
  valid := Deque.Ring.validate_eq_ok h.accounted.deque
  mappedOnce := h.accounted.store.nodup_nodes
  linkedOnce := Deque.Ring.nodup_nodes h.accounted.deque
  paired id := (h.accounted.perm_nodes h.reads).mem_iff
  weighed l hl := by
    obtain ⟨held, hh, hw⟩ := h.accounted.exists_held h.reads hl
    exact ⟨held, hh, hw ▸ h.weighed l.node held hh⟩
  size := by
    rw [h.published, ← h.accounted.sum_live h.reads h.weighed]
  fits := h.fits

theorem tidy_empty (s : Settings) : s.empty.Tidy [] where
  toCovered := s.covered_empty
  room := by simp [Settings.empty, Buffers.ofLevel, Settings.bufferRoom]
  count := Buffers.count_ofLevel_pos _ _ _
  lock := rfl
  reads := by simp [Settings.empty]
  published := rfl
  fits := Nat.zero_le _

/-- Between two calls a cache is consistent, whatever ran in gaps and reactions, as long as nobody
else takes the lock. -/
theorem consistent_perform (hbuild : s.build = .ok fresh)
    (hscripts : ∀ l ∈ s.listener, l.Stocks Scope.uncontended.Allows)
    (hops : Op.allWithin .uncontended ops = true) : (perform ops fresh).2.Consistent := by
  obtain ⟨_, rfl⟩ := Settings.eq_empty_of_build hbuild
  have hminds : Minds .uncontended deliver := minds_deliver rfl fun _ => rfl
  have hp := Settings.proper_empty (P := Scope.uncontended.Allows) hscripts
  have htidy := (perform_spec (lawful_keepsTidy hminds rfl fun _ => rfl) hops hp).2 [] (tidy_empty s)
  exact htidy.consistent ((atEase_empty s).perform hops hp).queue

def reentrant : Settings :=
  { capacity := 1, listener := some { scripts := [("a", [[.call (.put "z" "9"), .call .cleanUp]])] } }

theorem consistent_perform_reentrant :
    (perform [.call (.put "a" "1"),
      .interrupted (.put "b" "2") [.call (.put "b" "3"), .call (.remove "a")],
      .call (.setCapacity 2)] reentrant.empty).2.Consistent := by
  have hscripts : ∀ l ∈ reentrant.listener, l.Stocks Scope.uncontended.Allows := by
    simp [reentrant, Listener.Stocks, Scope.Allows, Op.allWithin, Op.within, Scope.uncontended]
  exact consistent_perform (s := reentrant) rfl hscripts rfl

end Cache

end BoundedCache
