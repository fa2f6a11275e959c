import Mathlib
import BoundedCache.Proofs.Lru.Quiet

namespace BoundedCache

mutual

/-- A step without what it tells of failed calls of the listener. -/
def Step.masked : Step → Step
  | ⟨act, answer, length, weightedSize, meanwhile⟩ =>
    match meanwhile with
    | none => ⟨act, answer.masked, length, weightedSize, none⟩
    | some steps => ⟨act, answer.masked, length, weightedSize, some (Step.allMasked steps)⟩

def Answer.masked : Answer Step → Answer Step
  | .metrics m => .metrics { m with listenerFailures := 0 }
  | .steps steps => .steps (Step.allMasked steps)
  | .discarded n steps => .discarded n (Step.allMasked steps)
  | answer => answer

def Step.allMasked : List Step → List Step
  | [] => []
  | step :: rest => step.masked :: Step.allMasked rest

end

def Report.shown (r : Report) : Step × List DrainRecord := (r.step.masked, r.drains)

theorem Listener.supply_of_passive {l : Listener (List Op)} (h : l.Passive) : l.supply = 0 := by
  have hnone : l.scripts.flatMap (·.2) = [] :=
    List.flatMap_eq_nil_iff.mpr fun p hp => List.eq_nil_iff_forall_not_mem.mpr (h p hp)
  rw [supply, hnone]
  rfl

namespace Cache

variable {c c' d d' : Cache} {event : Event} {b : Buffers} {call : Call} {i : Intent}
  {s : Suspended}

/-- No script is left to a listener that never calls back. -/
theorem Quiet.scriptsLeft (h : c.Quiet) : c.scriptsLeft = 0 := by
  unfold Cache.scriptsLeft
  cases hl : c.relay.listener with
  | none => rfl
  | some l => exact Listener.supply_of_passive (h.stocked l hl)

/-- Two caches that differ in their relays alone. Nobody who listens to one of them calls back, and
nobody is still to be told of anything. -/
structure Twins (c c' : Cache) : Prop where
  same : c' = { c with relay := c'.relay }
  quiet : c.Quiet
  quiet' : c'.Quiet
  ease : c.AtEase
  ease' : c'.AtEase

/-- What is done without a look at the relay, and leaves it alone, keeps two caches twins. -/
theorem Twins.alter {f : Cache → Cache} (h : Twins c c')
    (hf : ∀ r, f { c with relay := r } = { f c with relay := r }) (hp : (f c).engine.Paired) :
    Twins (f c) (f c') := by
  have hrelay : (f c).relay = c.relay := by rw [show f c = _ from hf c.relay]
  have hsame : f c' = { f c with relay := c'.relay } := by rw [← hf, ← h.same]
  rw [hsame]
  constructor
  · rfl
  · exact ⟨hp, by rw [Stocked, hrelay]; exact h.quiet.stocked⟩
  · exact ⟨hp, h.quiet'.stocked⟩
  · exact h.ease.of_eq hrelay
  · exact h.ease'.of_eq rfl

theorem Twins.alike (h : Twins c c') : c.Alike c' := by
  rw [h.same]
  exact ⟨rfl, rfl, rfl⟩

/-- Deliveries make no difference, whoever is told of whatever waits. -/
theorem twins_deliver (hsame : d' = { d with relay := d'.relay }) (hq : d.Quiet) (hq' : d'.Quiet)
    (ha : d.Attended) (ha' : d'.Attended) : Twins d.deliver.2 d'.deliver.2 := by
  obtain ⟨r, hr, _⟩ := deliver_quiet hq
  obtain ⟨r', hr', _⟩ := deliver_quiet hq'
  refine ⟨?_, (steady_deliver .calls d (hq.proper _)).proper hq,
    (steady_deliver .calls d' (hq'.proper _)).proper hq',
    ha.deliver (hq.proper Scope.calls.Allows), ha'.deliver (hq'.proper Scope.calls.Allows)⟩
  rw [hr, hr', hsame]

theorem Twins.deliver (h : Twins c c') : Twins c.deliver.2 c'.deliver.2 :=
  twins_deliver h.same h.quiet h.quiet' h.ease.attended h.ease'.attended

/-- A drain evicts the same, and queues it for whoever listens. -/
theorem drained_withRelay (c : Cache) (r : Relay (Listener (List Op)) (List Step)) :
    drained { c with relay := r } =
      { c.drained with relay := r.enqueueAll (c.engine.run c.capacity).1.victims } := by
  unfold drained
  dsimp only
  split <;> rfl

theorem Twins.drain (h : Twins c c') :
    Twins (c.drain Cache.deliver) (c'.drain Cache.deliver) := by
  refine twins_deliver ?_ ((Evolves.drained c).proper h.quiet)
    ((Evolves.drained c').proper h.quiet') h.ease.attended.drained h.ease'.attended.drained
  rw [h.same, drained_withRelay]

theorem Twins.tryDrain (h : Twins c c') :
    Twins (c.tryDrain Cache.deliver) (c'.tryDrain Cache.deliver) := by
  have hlock : c'.lockHeld = c.lockHeld := by rw [h.same]
  unfold Cache.tryDrain
  rw [hlock]
  split
  · exact h
  · exact h.drain

/-- A writer that has got its event in. -/
theorem Twins.settled (h : Twins c c') (hb : c.engine.buffers.recordOwn event = .ok b) :
    Twins (c.settled Cache.deliver b) (c'.settled Cache.deliver b) := by
  have hrecorded := h.alter (f := fun d => { d with engine := { d.engine with buffers := b } })
    (fun _ => rfl) ((Evolves.rebuffer hb).proper h.quiet).paired
  unfold Cache.settled
  dsimp only
  split
  · exact hrecorded.tryDrain
  · exact hrecorded

/-- A writer gets its event in with both or with none. -/
theorem Twins.recordWithin (h : Twins c c') (event : Event) (n : Nat) :
    (c.recordWithin Cache.deliver event n = none ∧
      c'.recordWithin Cache.deliver event n = none) ∨
      ∃ d d', c.recordWithin Cache.deliver event n = some d ∧
        c'.recordWithin Cache.deliver event n = some d' ∧ Twins d d' := by
  induction n generalizing c c' with
  | zero => exact Or.inl ⟨rfl, rfl⟩
  | succ n ih =>
    have hbuffers : c'.engine.buffers = c.engine.buffers := by rw [h.same]
    have hlock : c'.lockHeld = c.lockHeld := by rw [h.same]
    unfold Cache.recordWithin
    rw [hbuffers]
    cases hb : c.engine.buffers.recordOwn event with
    | ok b => exact Or.inr ⟨_, _, rfl, rfl, h.settled hb⟩
    | error back =>
      cases Buffers.eq_of_record_eq_error hb
      dsimp only
      rw [hlock]
      split
      · exact Or.inl ⟨rfl, rfl⟩
      · exact ih h.drain

/-- What a call decides on has the same answer and the same effect for both. -/
theorem Twins.run (h : Twins c c') (hi : i.Suits c call) (hlooks : call.looks = false) :
    (i.run Cache.deliver call c').1 = (i.run Cache.deliver call c).1 ∧
      Twins (i.run Cache.deliver call c).2 (i.run Cache.deliver call c').2 := by
  have hlock : c'.lockHeld = c.lockHeld := by rw [h.same]
  cases hi with
  | look looks view => exact absurd (looks.symm.trans hlooks) (by simp)
  | @idle _ answer =>
    exact ⟨rfl, h.alter (f := (·.count (call.tally answer))) (fun _ => rfl) h.quiet.paired⟩
  | @read _ answer id last =>
    have hread := (Evolves.recordRead (c.count (call.tally answer)) id).proper
      ((Evolves.count c (call.tally answer)).proper h.quiet)
    refine ⟨rfl, h.alter (f := fun d => (d.count (call.tally answer)).recordRead id) ?_
      hread.paired⟩
    intro r
    unfold recordRead
    dsimp only [count]
    split <;> rfl
  | @write _ answer event pool store hw =>
    have hwritten := h.alter (f := Intent.written call answer pool store) (fun _ => rfl)
      (hw.evolves.proper h.quiet).paired
    simp only [Intent.run, recordWrite]
    rw [hwritten.quiet.scriptsLeft, hwritten.quiet'.scriptsLeft]
    rcases hwritten.recordWithin event (0 + 2) with ⟨hn, hn'⟩ | ⟨d, d', hs, hs', hd⟩
    · rw [hn, hn']
      exact ⟨rfl, hwritten⟩
    · rw [hs, hs']
      exact ⟨rfl, hd⟩
  | resize capacity =>
    have hcap := h.alter (f := fun d => { d with capacity }) (fun _ => rfl) h.quiet.paired
    by_cases hheld : c.lockHeld = true
    · simp only [Intent.run, if_pos hheld, if_pos (hlock.trans hheld)]
      exact ⟨trivial, h⟩
    · simp only [Intent.run, if_neg hheld, if_neg (hlock ▸ hheld)]
      exact ⟨trivial, hcap.drain⟩
  | tidy =>
    simp only [Intent.run, hlock]
    split
    · exact ⟨rfl, h⟩
    · exact ⟨rfl, h.drain⟩
  | empty =>
    have hcount : c'.cleared.1 = c.cleared.1 := by rw [h.same, cleared_eq, cleared_eq]
    have hcleared := h.alter (f := fun d => d.cleared.2)
      (fun r => by rw [cleared_eq, cleared_eq]) ((Evolves.cleared c).proper h.quiet).paired
    simp only [Intent.run, hlock, hcount]
    split
    · exact ⟨rfl, h⟩
    · exact ⟨rfl, hcleared.deliver⟩

/-- The check finds the same: no entry waits for a listener in either. -/
theorem Twins.check_eq (h : Twins c c') : c'.check = c.check := by
  have hrest : c'.restFault? = c.restFault? := by
    simp only [restFault?, h.ease.queue, h.ease'.queue]
    rw [h.same]
  unfold check
  rw [hrest, h.same]
  rfl

/-- The same is reported of an operation, up to failed calls of the listener. -/
theorem Twins.masked_step (h : Twins c c') (act : Act) {answer answer' : Answer Step}
    (hanswer : answer'.masked = answer.masked) {meanwhile meanwhile' : Option (List Step)}
    (hmeanwhile : meanwhile'.map Step.allMasked = meanwhile.map Step.allMasked) :
    (c'.step act answer' meanwhile').masked = (c.step act answer meanwhile).masked := by
  have hlength : c'.length = c.length := by rw [h.same]; rfl
  have hpublished : c'.published = c.published := by rw [h.same]
  have hmasked (c : Cache) (answer : Answer Step) (meanwhile : Option (List Step)) :
      (c.step act answer meanwhile).masked =
        ⟨act, answer.masked, c.length, c.published, meanwhile.map Step.allMasked⟩ := by
    cases meanwhile <;> rfl
  rw [hmasked, hmasked, hanswer, hlength, hpublished, hmeanwhile]

end Cache

open Cache

variable {c c' : Cache}

/-- Up to its gap a call answers and does the same for both, or stops at the same sight. -/
theorem Call.start_twins (call : Call) (h : Twins c c') :
    (∃ answer answer' d d', call.start deliver c = .settled answer d ∧
      call.start deliver c' = .settled answer' d' ∧ answer'.masked = answer.masked ∧ Twins d d') ∨
    ∃ s, s.Fits c call ∧ call.looks = false ∧ call.start deliver c = .gap s ∧
      call.start deliver c' = .gap s := by
  cases hlooks : call.looks with
  | false =>
    rcases call.start_begins h.quiet.paired with ⟨i, hi, hrun⟩ | ⟨s, hs, hrun⟩
    · obtain ⟨hanswer, hafter⟩ := h.run hi hlooks
      exact Or.inl ⟨_, _, _, _, hrun deliver c (.refl c), hrun deliver c' h.alike,
        congrArg Answer.masked hanswer, hafter⟩
    · exact Or.inr ⟨s, hs, rfl, hrun deliver c (.refl c), hrun deliver c' h.alike⟩
  | true =>
    refine Or.inl ?_
    cases call with
    | weightedSize | capacity =>
      refine ⟨_, _, c, c', rfl, rfl, ?_, h⟩
      rw [h.same]
    | check =>
      refine ⟨_, _, c, c', rfl, rfl, ?_, h⟩
      rw [h.check_eq]
    | metrics | describe =>
      refine ⟨_, _, c, c', rfl, rfl, ?_, h⟩
      rw [h.same]
      rfl
    | _ => cases hlooks

/-- After its gap too. -/
theorem Suspended.resume_twins {call : Call} {s : Suspended} (hs : s.Fits c call)
    (hlooks : call.looks = false) (h : Twins c c') :
    (s.resume deliver c').1 = (s.resume deliver c).1 ∧
      Twins (s.resume deliver c).2 (s.resume deliver c').2 := by
  obtain ⟨i, hi, hrun⟩ := Suspended.resume_decides hs h.quiet.paired
  have hc : s.resume deliver c = i.run deliver call c := hrun deliver c (.refl c)
  have hc' : s.resume deliver c' = i.run deliver call c' := hrun deliver c' h.alike
  rw [hc, hc']
  exact h.run hi hlooks

/-- So does a call that nothing comes between. -/
theorem Call.run_twins (call : Call) (h : Twins c c') :
    (call.run deliver c').1.masked = (call.run deliver c).1.masked ∧
      Twins (call.run deliver c).2 (call.run deliver c').2 := by
  unfold Call.run
  rcases call.start_twins h with
    ⟨answer, answer', d, d', hs, hs', hanswer, hd⟩ | ⟨s, hfits, hlooks, hs, hs'⟩
  · rw [hs, hs']
    exact ⟨hanswer, hd⟩
  · obtain ⟨hanswer, hafter⟩ := Suspended.resume_twins hfits hlooks h
    rw [hs, hs']
    exact ⟨congrArg Answer.masked hanswer, hafter⟩

mutual

/-- An operation reports the same of both and leaves twins. -/
theorem Op.run_twins : ∀ op : Op, op.within .calls = true → ∀ c c' : Cache, Twins c c' →
    (op.run deliver c').1.masked = (op.run deliver c).1.masked ∧
      Twins (op.run deliver c).2 (op.run deliver c').2
  | .call request, _ => by
    intro c c' h
    obtain ⟨hanswer, hafter⟩ := request.run_twins h
    exact ⟨hafter.masked_step _ hanswer rfl, hafter⟩
  | .probe (.record _ _ kind), hw => by
    rw [Op.within] at hw
    cases hw
  | .interrupted request meanwhile, hw => by
    intro c c' h
    rw [Op.within, Bool.and_eq_true] at hw
    unfold Op.run
    rcases request.start_twins h with
      ⟨answer, answer', d, d', hs, hs', hanswer, hd⟩ | ⟨s, hfits, hlooks, hs, hs'⟩
    · rw [hs, hs']
      exact ⟨hd.masked_step _ hanswer rfl, hd⟩
    · have hgap := Op.runAll_evolves (steady_deliver .calls) meanwhile c hw.2 (h.quiet.proper _)
      obtain ⟨hsteps, hbetween⟩ := Op.runAll_twins meanwhile hw.2 c c' h
      obtain ⟨hanswer, hafter⟩ := Suspended.resume_twins (hgap.fits hfits) hlooks hbetween
      rw [hs, hs']
      exact ⟨hafter.masked_step _ (congrArg Answer.masked hanswer)
        (congrArg some hsteps), hafter⟩
  | .hold ops, hw => by
    intro c c' h
    rw [Op.within, Bool.and_eq_true] at hw
    have hlocked := h.alter (f := fun d => { d with lockHeld := true }) (fun _ => rfl)
      h.quiet.paired
    obtain ⟨hsteps, hafter⟩ := Op.runAll_twins ops hw.2 _ _ hlocked
    have hlock : c'.lockHeld = c.lockHeld := by rw [h.same]
    have hfreed : Twins (c.underLock (Op.runAll deliver ops)).2
        (c'.underLock (Op.runAll deliver ops)).2 := by
      unfold underLock
      rw [hlock]
      exact hafter.alter (f := fun d => { d with lockHeld := c.lockHeld }) (fun _ => rfl)
        hafter.quiet.paired
    have hanswer : (Answer.steps (c'.underLock (Op.runAll deliver ops)).1).masked =
        (Answer.steps (c.underLock (Op.runAll deliver ops)).1).masked :=
      congrArg Answer.steps hsteps
    exact ⟨hfreed.masked_step _ hanswer rfl, hfreed⟩
  | .contended ops, hw => by
    intro c c' h
    rw [Op.within] at hw
    obtain ⟨hsteps, hafter⟩ := Op.runAll_twins ops hw c c' h
    have hanswer : (Answer.steps (Op.runAll deliver ops c').1).masked =
        (Answer.steps (Op.runAll deliver ops c).1).masked := congrArg Answer.steps hsteps
    exact ⟨hafter.masked_step _ hanswer rfl, hafter⟩

theorem Op.runAll_twins : ∀ ops : List Op, Op.allWithin .calls ops = true → ∀ c c' : Cache,
    Twins c c' →
    Step.allMasked (Op.runAll deliver ops c').1 = Step.allMasked (Op.runAll deliver ops c).1 ∧
      Twins (Op.runAll deliver ops c).2 (Op.runAll deliver ops c').2
  | [], _ => fun _ _ h => ⟨rfl, h⟩
  | op :: rest, hw => by
    intro c c' h
    rw [Op.allWithin, Bool.and_eq_true] at hw
    obtain ⟨hstep, hnext⟩ := Op.run_twins op hw.1 c c' h
    obtain ⟨hsteps, hlast⟩ := Op.runAll_twins rest hw.2 _ _ hnext
    exact ⟨congrArg₂ List.cons hstep hsteps, hlast⟩

end

namespace Cache

variable {ops : List Op}

/-- Whole runs of the top level show the same of twins. -/
theorem Twins.perform (h : Twins c c') (hops : Op.allWithin .calls ops = true) :
    (perform ops c').1.map Report.shown = (perform ops c).1.map Report.shown ∧
      Twins (perform ops c).2 (perform ops c').2 := by
  induction ops generalizing c c' with
  | nil => exact ⟨rfl, h⟩
  | cons op rest ih =>
    rw [Op.allWithin, Bool.and_eq_true] at hops
    obtain ⟨hstep, hnext⟩ := Op.run_twins op hops.1 c c' h
    obtain ⟨hreports, hlast⟩ := ih hnext hops.2
    have hdrains : (op.run Cache.deliver c').2.drains.drop c'.drains.length =
        (op.run Cache.deliver c).2.drains.drop c.drains.length := by rw [hnext.same, h.same]
    exact ⟨congrArg₂ List.cons (Prod.ext hstep hdrains) hreports, hlast⟩

theorem twins_empty (s : Settings) {l l' : Option (Listener (List Op))}
    (hl : ∀ x ∈ l, x.Passive) (hl' : ∀ x ∈ l', x.Passive) :
    Twins { s with listener := l }.empty { s with listener := l' }.empty where
  same := rfl
  quiet := Settings.proper_empty hl
  quiet' := Settings.proper_empty hl'
  ease := atEase_empty _
  ease' := atEase_empty _

/-- Who listens makes no difference, as long as nobody calls back: whether there is a listener, and
on which keys it fails and how, the operations answer the same (up to the number of failures),
report the same sizes and drain the same, and leave a cache that differs in its relay alone: the
same entries, recency order, pending events and counters. -/
theorem listening_immaterial (s : Settings) {l l' : Option (Listener (List Op))}
    (hl : ∀ x ∈ l, x.Passive) (hl' : ∀ x ∈ l', x.Passive) {fresh : Cache}
    (hbuild : { s with listener := l }.build = .ok fresh) (hops : Op.allWithin .calls ops = true) :
    ∃ fresh', { s with listener := l' }.build = .ok fresh' ∧
      (perform ops fresh').1.map Report.shown = (perform ops fresh).1.map Report.shown ∧
      (perform ops fresh').2 =
        { (perform ops fresh).2 with relay := (perform ops fresh').2.relay } ∧
      (perform ops fresh').2.metrics = { (perform ops fresh).2.metrics with
        listenerFailures := (perform ops fresh').2.relay.failures } := by
  obtain ⟨_, rfl⟩ := Settings.eq_empty_of_build hbuild
  have hbuild' := Settings.build_withListener hbuild l'
  obtain ⟨hshown, hlast⟩ := (twins_empty s hl hl').perform hops
  refine ⟨_, hbuild', hshown, hlast.same, ?_⟩
  rw [hlast.same]
  rfl

def evictingProgram : List Op :=
  [.call (.put "a" "1"), .call (.put "b" "2"), .call (.put "c" "3"),
    .hold [.call (.put "d" "4"), .call (.get "b"), .call .cleanUp], .call .cleanUp,
    .interrupted (.putIfAbsent "a" "5") [.call (.put "a" "6"), .call .metrics],
    .contended [.call (.setCapacity 1)], .call .check, .call .metrics]

def grumbler : Listener (List Op) := { failing := [("a", .text "boom"), ("b", .other)] }

theorem listening_immaterial_grumbler :
    let s : Settings := { capacity := 2 }
    let noisy := (perform evictingProgram { s with listener := some grumbler }.empty)
    noisy.2.relay.failures = 2 ∧
      noisy.1.map Report.shown = (perform evictingProgram s.empty).1.map Report.shown ∧
      noisy.2.metrics =
        { (perform evictingProgram s.empty).2.metrics with listenerFailures := 2 } := by
  have hpassive : ∀ l ∈ some grumbler, l.Passive := by
    simp [grumbler, Listener.Passive, Listener.Stocks]
  have hfailures : (perform evictingProgram
      { capacity := 2, listener := some grumbler : Settings }.empty).2.relay.failures = 2 := by
    cbv
  have hops : Op.allWithin .calls evictingProgram = true := by decide +kernel
  obtain ⟨fresh', hbuild, hshown, -, hmetrics⟩ := listening_immaterial { capacity := 2 }
    (l := none) (by simp) hpassive rfl hops
  cases hbuild
  rw [hfailures] at hmetrics
  exact ⟨hfailures, hshown, hmetrics⟩

end Cache

end BoundedCache
