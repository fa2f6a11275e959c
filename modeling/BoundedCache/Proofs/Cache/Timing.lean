import BoundedCache.Proofs.Cache.Akin
import BoundedCache.Proofs.Cache.Prospect

namespace BoundedCache

/-- Calls that run one after the other, all of them under a foreign lock or none. -/
structure Stretch where
  held : Bool
  calls : List Call

namespace Stretch

def ops (s : Stretch) : List Op :=
  if s.held then [.hold (s.calls.map .call)] else s.calls.map .call

def moments (s : Stretch) : List (Bool × Call) := s.calls.map (s.held, ·)

def program (stretches : List Stretch) : List Op := stretches.flatMap ops

theorem within_ops (s : Stretch) : Op.allWithin .calls s.ops = true := by
  obtain ⟨held, calls⟩ := s
  have hcalls : Op.allWithin .calls (calls.map .call) = true := by
    induction calls with
    | nil => rfl
    | cons call calls ih => exact ih
  cases held with
  | true => simpa [ops, Op.allWithin, Op.within, Scope.calls] using hcalls
  | false => exact hcalls

theorem within_program (stretches : List Stretch) :
    Op.allWithin .calls (program stretches) = true := by
  induction stretches with
  | nil => rfl
  | cons s stretches ih =>
    have h := Op.allWithin_append .calls s.ops (program stretches)
    rw [s.within_ops, ih] at h
    exact h

end Stretch

/-- The answer does not tell of drains. -/
def Deed.plain (d : Deed) : Bool :=
  match d.act with
  | .call call => !call.looks
  | _ => false

namespace Cache

variable {c c' : Cache} {moments moments' : List (Bool × Call)}

def locked (held : Bool) (c : Cache) : Cache := { c with lockHeld := held }

theorem locked_eq {held : Bool} (h : c.lockHeld = held) : c.locked held = c := by
  subst h
  rfl

theorem Proper.locked {P : List Op → Prop} (h : c.Proper P) (held : Bool) :
    (c.locked held).Proper P := ⟨h.paired, h.stocked⟩

def timed : List (Bool × Call) → Cache → List Deed × Cache
  | [], c => ([], c)
  | (held, call) :: rest, c =>
    let (answer, next) := call.run deliver (c.locked held)
    let (deeds, last) := timed rest (next.locked c.lockHeld)
    (⟨.call call, answer⟩ :: deeds, last)

theorem timed_append (moments moments' : List (Bool × Call)) (c : Cache) :
    timed (moments ++ moments') c =
      ((timed moments c).1 ++ (timed moments' (timed moments c).2).1,
        (timed moments' (timed moments c).2).2) := by
  induction moments generalizing c with
  | nil => rfl
  | cons moment moments ih => simp only [List.cons_append, timed, ih]

theorem evolves_call (hp : c.Proper Scope.calls.Allows) (call : Call) :
    c.Evolves (call.run deliver c).2 :=
  (call.run_performs deliver hp.paired).evolves (steady_deliver .calls) hp

/-- Calls one at a time are calls under one lock. -/
theorem timed_map (hlock : c.lockHeld = false) (hp : c.Proper Scope.calls.Allows) (held : Bool)
    (calls : List Call) :
    timed (calls.map (held, ·)) c =
      (Step.allDeeds (Op.runAll deliver (calls.map .call) (c.locked held)).1,
        (Op.runAll deliver (calls.map .call) (c.locked held)).2.locked false) := by
  induction calls generalizing c with
  | nil => exact congrArg (Prod.mk []) (locked_eq hlock).symm
  | cons call calls ih =>
    have hcall := evolves_call (hp.locked held) call
    have hlater := ih (c := (call.run deliver (c.locked held)).2.locked false) rfl
      ((hcall.proper (hp.locked held)).locked false)
    have hkept : ((call.run deliver (c.locked held)).2.locked false).locked held =
        (call.run deliver (c.locked held)).2 := locked_eq hcall.lock
    rw [hkept] at hlater
    simp only [List.map_cons, timed, Op.runAll, Op.run, hlock, hlater]
    rfl

/-- A stretch is its calls one at a time. -/
theorem timed_moments (hlock : c.lockHeld = false) (hp : c.Proper Scope.calls.Allows)
    (s : Stretch) :
    timed s.moments c = (Step.allDeeds (Op.runAll deliver s.ops c).1,
      (Op.runAll deliver s.ops c).2) := by
  obtain ⟨held, calls⟩ := s
  refine (timed_map hlock hp held calls).trans ?_
  cases held with
  | true =>
    have hfree : c.lockHeld = false := hlock
    simp only [Stretch.ops, if_true, Op.runAll, Op.run, underLock, hfree, step, Step.allDeeds,
      Step.deeds, Answer.deeds, List.append_nil]
    rfl
  | false =>
    have hkept := (Op.runAll_evolves (steady_deliver .calls) _ c
      (Stretch.within_ops ⟨false, calls⟩) hp).lock
    rw [locked_eq hlock]
    exact congrArg (Prod.mk _) (locked_eq (hkept.trans hlock))

/-- A program is its calls one at a time. -/
theorem timed_program (hlock : c.lockHeld = false) (hp : c.Proper Scope.calls.Allows)
    (stretches : List Stretch) :
    timed (stretches.flatMap Stretch.moments) c =
      (Step.allDeeds (Op.runAll deliver (Stretch.program stretches) c).1,
        (Op.runAll deliver (Stretch.program stretches) c).2) := by
  induction stretches generalizing c with
  | nil => rfl
  | cons s stretches ih =>
    have hs := Op.runAll_evolves (steady_deliver .calls) _ c s.within_ops hp
    rw [List.flatMap_cons, timed_append, timed_moments hlock hp s,
      ih (hs.lock.trans hlock) (hs.proper hp), ← Step.allDeeds_append]
    have happend := Op.runAll_append deliver s.ops (Stretch.program stretches) c
    rw [show Stretch.program (s :: stretches) = s.ops ++ Stretch.program stretches from rfl, happend]

theorem harm_le_call (hp : c.Proper Scope.calls.Allows) (call : Call) :
    c.harm ≤ (call.run deliver c).2.harm :=
  lawful_harm.call rfl hp (call.run_performs deliver hp.paired)

theorem harm_le_timed (hp : c.Proper Scope.calls.Allows) (moments : List (Bool × Call)) :
    c.harm ≤ (timed moments c).2.harm := by
  induction moments generalizing c with
  | nil => exact Nat.le_refl _
  | cons moment moments ih =>
    obtain ⟨held, call⟩ := moment
    have hp' := hp.locked held
    have hcall : c.harm ≤ (call.run deliver (c.locked held)).2.harm := harm_le_call hp' call
    exact Nat.le_trans hcall (ih (((evolves_call hp' call).proper hp').locked c.lockHeld))

structure Unharmed (c : Cache) (deeds : List Deed) (last : Cache) : Prop where
  returned : ∀ d ∈ deeds, d.returned = true
  harm : last.harm ≤ c.harm

/-- Without harm from the first of the calls to the last, there is none in between. -/
theorem Unharmed.uncons {held : Bool} {call : Call} (hp : c.Proper Scope.calls.Allows)
    (h : c.Unharmed (timed ((held, call) :: moments) c).1 (timed ((held, call) :: moments) c).2) :
    let run := call.run deliver (c.locked held)
    (c.locked held).Unharmed [⟨.call call, run.1⟩] run.2 ∧
      (run.2.locked c.lockHeld).Unharmed (timed moments (run.2.locked c.lockHeld)).1
        (timed moments (run.2.locked c.lockHeld)).2 := by
  obtain ⟨hreturned, hharm⟩ := h
  obtain ⟨hfirst, hlater⟩ := List.forall_mem_cons.mp hreturned
  have hp' := hp.locked held
  have hcall := harm_le_call hp' call
  have hrest := harm_le_timed (((evolves_call hp' call).proper hp').locked c.lockHeld) moments
  dsimp only [timed] at hharm hlater
  exact ⟨⟨List.forall_mem_singleton.mpr hfirst, Nat.le_trans hrest hharm⟩,
    ⟨hlater, Nat.le_trans hharm hcall⟩⟩

/-- Two caches that may differ in what they have replayed so far, and will be the same. -/
structure Concurs (c c' : Cache) : Prop where
  calm : c.Calm []
  other : c'.Calm []
  same : c'.prospect [] = c.prospect []

namespace Concurs

theorem locked (h : c.Concurs c') (held held' : Bool) :
    (c.locked held).Concurs (c'.locked held') :=
  ⟨h.calm.of_eq rfl rfl rfl, h.other.of_eq rfl rfl rfl, h.same⟩

/-- A call decides on the same in both. -/
theorem alike (h : c.Concurs c') : c.Alike c' :=
  ⟨congrArg (·.pool) h.same, congrArg (·.store) h.same, congrArg (·.weigher) h.same⟩

/-- A call that returns without harm in both leaves them the same, and answers the same. -/
theorem call (h : c.Concurs c') (call : Call)
    (hc : c.Unharmed [⟨.call call, (call.run deliver c).1⟩] (call.run deliver c).2)
    (hc' : c'.Unharmed [⟨.call call, (call.run deliver c').1⟩] (call.run deliver c').2) :
    (call.run deliver c).2.Concurs (call.run deliver c').2 ∧
      (call.looks = false → (call.run deliver c').1 = (call.run deliver c).1) := by
  obtain ⟨i, hsuits, hrun⟩ := call.run_decides h.calm.proper.paired
  have hi : call.run deliver c = i.run deliver call c := hrun deliver c (.refl c)
  have hi' : call.run deliver c' = i.run deliver call c' := hrun deliver c' h.alike
  rw [hi] at hc ⊢
  rw [hi'] at hc' ⊢
  obtain ⟨hcalm, hprospect, hreply⟩ :=
    hsuits.forecast h.calm (hc.returned _ (List.mem_singleton_self _)) hc.harm
  obtain ⟨hcalm', hprospect', hreply'⟩ :=
    (hsuits.of_alike h.alike).forecast h.other (hc'.returned _ (List.mem_singleton_self _)) hc'.harm
  refine ⟨⟨hcalm, hcalm', by rw [hprospect, hprospect', h.same]⟩, fun hplain => ?_⟩
  rw [h.same] at hreply'
  cases hr : i.reply (c.prospect []) with
  | some answer => rw [hreply answer hr, hreply' answer hr]
  | none =>
    cases hsuits with
    | look looks => simp [hplain] at looks
    | idle | read | write | resize | tidy | empty => cases hr

/-- Calls that return without harm, the lock being held and free at different calls. -/
theorem timed (h : c.Concurs c') (hcalls : moments'.map (·.2) = moments.map (·.2))
    (hrun : c.Unharmed (timed moments c).1 (timed moments c).2)
    (hrun' : c'.Unharmed (timed moments' c').1 (timed moments' c').2) :
    (timed moments c).2.Concurs (timed moments' c').2 ∧
      (timed moments' c').1.filter Deed.plain = (timed moments c).1.filter Deed.plain := by
  induction moments generalizing moments' c c' with
  | nil =>
    rw [List.map_nil, List.map_eq_nil_iff] at hcalls
    subst hcalls
    exact ⟨h, rfl⟩
  | cons moment moments ih =>
    obtain ⟨⟨held', call⟩, moments', rfl, hcall, hrest⟩ := List.map_eq_cons_iff.mp hcalls
    obtain ⟨held, _⟩ := moment
    cases hcall
    obtain ⟨hfirst, hlater⟩ := hrun.uncons h.calm.proper
    obtain ⟨hfirst', hlater'⟩ := hrun'.uncons h.other.proper
    obtain ⟨hnext, hanswer⟩ := (h.locked held held').call call hfirst hfirst'
    obtain ⟨hlast, hanswers⟩ :=
      ih (hnext.locked c.lockHeld c'.lockHeld) hrest hlater hlater'
    refine ⟨hlast, ?_⟩
    have hplain (answer : Answer Step) : Deed.plain ⟨.call call, answer⟩ = !call.looks := rfl
    simp only [Cache.timed]
    by_cases hlooks : call.looks = true
    · rw [List.filter_cons_of_neg (by simp [hplain, hlooks]),
        List.filter_cons_of_neg (by simp [hplain, hlooks]), hanswers]
    · rw [List.filter_cons_of_pos (by simp [hplain, hlooks]),
        List.filter_cons_of_pos (by simp [hplain, hlooks]), hanswers,
        hanswer (Bool.eq_false_iff.mpr hlooks)]

/-- A drain of both leaves the same contents. -/
theorem drained (h : c.Concurs c') (hlock : c'.lockHeld = c.lockHeld)
    (hbuffers : c'.engine.buffers.emptied = c.engine.buffers.emptied) :
    c.drained.Akin c'.drained := by
  have hsound := h.calm.covered.sound
  have hsound' := h.other.covered.sound
  have hlistener : c'.relay.listener = c.relay.listener := congrArg (·.listener) h.same
  have henabled : c'.relay.enabled = c.relay.enabled := by
    rw [h.calm.ease.listener, h.other.ease.listener, hlistener]
  have hqueue : c'.relay.queue = c.relay.queue := by rw [h.calm.ease.queue, h.other.ease.queue]
  have hreplay : c.engine.replay.2.Akin c'.engine.replay.2 := by
    have hacc := h.calm.covered.swap.replay hsound
    have hacc' := h.other.covered.swap.replay hsound'
    have horder : (c'.engine.applyAll (c'.engine.buffers.events ++ [])).deque.order =
        (c.engine.applyAll (c.engine.buffers.events ++ [])).deque.order :=
      congrArg (·.order) h.same
    have htouch : c'.engine.touchOnUpdate = c.engine.touchOnUpdate :=
      congrArg (·.touchOnUpdate) h.same
    rw [List.append_nil, List.append_nil] at horder
    rw [Engine.replay_eq _ hsound] at hacc ⊢
    rw [Engine.replay_eq _ hsound'] at hacc' ⊢
    refine hacc.akin hacc' ?_ ?_ hbuffers ?_ horder
    · simpa only [Engine.pool_applyAll] using h.alike.pool
    · simpa only [Engine.store_applyAll] using h.alike.store
    · simpa only [Engine.touchOnUpdate_applyAll] using htouch
  exact .drained_of_replay hsound hreplay (congrArg (·.weigher) h.same)
    (congrArg (·.capacity) h.same) hlock henabled hlistener hqueue

end Concurs

structure Smooth (run : List Report × Cache) : Prop where
  returned : ∀ d ∈ run.1.flatMap (·.step.deeds), d.returned = true
  evictions : run.2.metrics.evictions = 0
  droppedReads : run.2.metrics.droppedReads = 0

instance (run : List Report × Cache) : Decidable (Smooth run) :=
  decidable_of_iff ((∀ d ∈ run.1.flatMap (·.step.deeds), d.returned = true) ∧
      run.2.metrics.evictions = 0 ∧ run.2.metrics.droppedReads = 0)
    ⟨fun h => ⟨h.1, h.2.1, h.2.2⟩, fun h => ⟨h.returned, h.evictions, h.droppedReads⟩⟩

def answers (ops : List Op) (c : Cache) : List Deed :=
  ((perform ops c).1.flatMap (·.step.deeds)).filter Deed.plain

variable {s : Settings} {fresh : Cache} {xs ys : List Stretch}

theorem calm_empty (hscripts : ∀ l ∈ s.listener, l.Stocks Scope.calls.Allows) :
    s.empty.Calm [] :=
  ⟨s.covered_empty, Buffers.lone_ofLevel _ _ _, atEase_empty s, Settings.proper_empty hscripts⟩

/-- A smooth run from an empty cache, call by call. -/
theorem Smooth.timed (hscripts : ∀ l ∈ s.listener, l.Stocks Scope.calls.Allows)
    (h : Smooth (perform (Stretch.program xs) s.empty)) :
    let run := timed (xs.flatMap Stretch.moments) s.empty
    s.empty.Unharmed run.1 run.2 ∧ answers (Stretch.program xs) s.empty = run.1.filter Deed.plain ∧
      (perform (Stretch.program xs) s.empty).2 = run.2 := by
  obtain ⟨hsteps, hlast⟩ := perform_eq (Stretch.program xs) s.empty
  have hdeeds : (perform (Stretch.program xs) s.empty).1.flatMap (·.step.deeds) =
      Step.allDeeds (Op.runAll deliver (Stretch.program xs) s.empty).1 := by
    rw [← allDeeds_map_step, hsteps]
  obtain ⟨hreturned, hevictions, hdrops⟩ := h
  have hharm : (perform (Stretch.program xs) s.empty).2.harm = 0 := by
    rw [harm, Nat.add_eq_zero_iff]
    exact ⟨hevictions, hdrops⟩
  rw [timed_program rfl (Settings.proper_empty hscripts), answers, ← hlast, ← hdeeds]
  exact ⟨⟨hreturned, Nat.le_of_eq hharm⟩, rfl, rfl⟩

/-- The timing of drains does not matter: runs of the same calls that evict nothing and drop no read
answer the same, wherever foreign locks have held the drains up, and a clean-up then leaves the same
recency order with the same weights, the same live pairs and the same weighted size. -/
theorem timing_immaterial (hbuild : s.build = .ok fresh)
    (hscripts : ∀ l ∈ s.listener, l.Stocks Scope.calls.Allows)
    (hcalls : ys.flatMap (·.calls) = xs.flatMap (·.calls))
    (hxs : Smooth (perform (Stretch.program xs) fresh))
    (hys : Smooth (perform (Stretch.program ys) fresh)) :
    answers (Stretch.program ys) fresh = answers (Stretch.program xs) fresh ∧
      let c := (perform [.call .cleanUp] (perform (Stretch.program xs) fresh).2).2
      let c' := (perform [.call .cleanUp] (perform (Stretch.program ys) fresh).2).2
      c'.order.map (fun p => (p.key, p.weight)) = c.order.map (fun p => (p.key, p.weight)) ∧
        c'.engine.live = c.engine.live ∧ c'.published = c.published := by
  obtain ⟨_, rfl⟩ := Settings.eq_empty_of_build hbuild
  have hcalm := calm_empty hscripts
  have hempty : s.empty.Concurs s.empty := ⟨hcalm, hcalm, rfl⟩
  obtain ⟨hrun, hanswers, hlast⟩ := hxs.timed hscripts
  obtain ⟨hrun', hanswers', hlast'⟩ := hys.timed hscripts
  have hmoments (zs : List Stretch) :
      (zs.flatMap Stretch.moments).map (·.2) = zs.flatMap (·.calls) := by
    simp [List.map_flatMap, Stretch.moments, Function.comp_def]
  obtain ⟨hconcurs, hsame⟩ :=
    hempty.timed (by rw [hmoments, hmoments, hcalls]) hrun hrun'
  refine ⟨by rw [hanswers, hanswers', hsame], ?_⟩
  rw [← hlast, ← hlast'] at hconcurs
  -- Both runs leave the lock as it was, and the buffers but for what waits in them.
  have hevolves (zs : List Stretch) : s.empty.Evolves (perform (Stretch.program zs) s.empty).2 := by
    rw [(perform_eq (Stretch.program zs) s.empty).2]
    exact Op.runAll_evolves (steady_deliver .calls) _ _ (Stretch.within_program zs) hcalm.proper
  have hx := hevolves xs
  have hy := hevolves ys
  have hakin := (hconcurs.drained (hy.lock.trans hx.lock.symm)
    (hy.engine.buffers.trans hx.engine.buffers.symm)).deliver
      ((Evolves.drained _).proper hconcurs.calm.proper)
  rw [perform_cleanUp (hx.lock.trans rfl), perform_cleanUp (hy.lock.trans rfl), drain, drain]
  exact ⟨hakin.order_eq, hakin.live_eq, hakin.published⟩

def lively : Settings :=
  { capacity := 3
    concurrency := 1
    listener := some { scripts := [("b", [[.call (.get "c"), .call (.put "e" "9")]])] } }

def prompt : List Stretch :=
  [⟨false, [.put "a" "1", .put "b" "2", .get "a", .replace "b" "3", .remove "a", .put "a" "4"]⟩,
    ⟨true, [.put "c" "5", .put "d" "6"]⟩]

def delayed : List Stretch :=
  [⟨true, [.put "a" "1", .put "b" "2", .get "a"]⟩, ⟨false, [.replace "b" "3", .remove "a"]⟩,
    ⟨true, [.put "a" "4", .put "c" "5", .put "d" "6"]⟩]

theorem timing_immaterial_delayed :
    answers (Stretch.program delayed) lively.empty = answers (Stretch.program prompt) lively.empty ∧
      (perform [.call .cleanUp] (perform (Stretch.program delayed) lively.empty).2).2.order.map
        (fun p => (p.key, p.weight)) = [("d", 1), ("c", 1), ("e", 1)] := by
  have hscripts : ∀ l ∈ lively.listener, l.Stocks Scope.calls.Allows := by
    simp [lively, Listener.Stocks, Scope.Allows, Op.allWithin, Op.within, Scope.calls]
  have hcalls : delayed.flatMap (·.calls) = prompt.flatMap (·.calls) := rfl
  have hprompt : Smooth (perform (Stretch.program prompt) lively.empty) :=
    of_decide_eq_true (by cbv)
  have hdelayed : Smooth (perform (Stretch.program delayed) lively.empty) :=
    of_decide_eq_true (by cbv)
  obtain ⟨hanswers, horder, _⟩ :=
    timing_immaterial (s := lively) rfl hscripts hcalls hprompt hdelayed
  refine ⟨hanswers, horder.trans ?_⟩
  cbv

end Cache

end BoundedCache
