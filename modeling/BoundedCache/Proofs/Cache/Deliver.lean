import BoundedCache.Proofs.Cache.Runs
import BoundedCache.Proofs.Engine.Accounted

namespace BoundedCache

namespace Listener

variable {σ : Type} {l : Listener σ} {P : σ → Prop} {key : Key}

theorem stocks_nextScript {scripts rest : List (Key × List σ)} {script : σ}
    (h : nextScript key scripts = some (script, rest))
    (hs : ∀ p ∈ scripts, ∀ script ∈ p.2, P script) :
    P script ∧ ∀ p ∈ rest, ∀ script ∈ p.2, P script := by
  induction scripts generalizing rest with
  | nil => cases h
  | cons p tail ih =>
    obtain ⟨k, own⟩ := p
    unfold nextScript at h
    split at h
    · cases own with
      | nil => cases h
      | cons s later =>
        cases h
        have hfirst := hs (k, script :: later) List.mem_cons_self
        refine ⟨hfirst script List.mem_cons_self, fun p hp => ?_⟩
        rcases List.mem_cons.mp hp with rfl | hp
        · exact fun other hm => hfirst other (List.mem_cons_of_mem _ hm)
        · exact hs p (List.mem_cons_of_mem _ hp)
    · obtain ⟨⟨s, r⟩, hr, he⟩ := Option.map_eq_some_iff.mp h
      cases he
      obtain ⟨hscript, hrest⟩ := ih hr (fun p hp => hs p (List.mem_cons_of_mem _ hp))
      refine ⟨hscript, fun p hp => ?_⟩
      rcases List.mem_cons.mp hp with rfl | hp
      · exact hs (k, own) List.mem_cons_self
      · exact hrest p hp

/-- A response takes its script from the stock. -/
theorem stocks_respond (h : l.Stocks P) (e : Entry) :
    (∀ script ∈ (l.respond e).1.script, P script) ∧ (l.respond e).2.Stocks P := by
  unfold respond
  cases l.failing.lookup e.key with
  | some payload => exact ⟨by simp, h⟩
  | none =>
    dsimp only
    cases hn : nextScript e.key l.scripts with
    | none => exact ⟨by simp, h⟩
    | some result =>
      obtain ⟨script, rest⟩ := result
      obtain ⟨hscript, hrest⟩ := stocks_nextScript hn h
      exact ⟨fun s hm => Option.mem_some.mp hm ▸ hscript, hrest⟩

theorem supply_respond_of_none {e : Entry} (h : (l.respond e).1.script = none) :
    (l.respond e).2.supply = l.supply := by
  have := supply_respond l e
  simpa [h] using this

theorem supply_respond_of_some {e : Entry} {script : σ} (h : (l.respond e).1.script = some script) :
    (l.respond e).2.supply < l.supply := by
  have := supply_respond l e
  simp only [h, Option.toList_some, List.length_singleton] at this
  omega

end Listener

namespace Cache

variable {c c' : Cache} {e : Entry} {rest : List Entry} {l l' : Listener (List Op)} {n : Nat}

def reaction (script : List Op) (c : Cache) : List Step × Cache := Op.runAll Courier.busy script c

def dequeue (rest : List Entry) (c : Cache) : Cache :=
  { c with relay := { c.relay with queue := rest } }

def tell (l : Listener (List Op)) (e : Entry) (c : Cache) : Cache :=
  Relaying.call reaction e (l.respond e).1 c

def withListener (l : Option (Listener (List Op))) (c : Cache) : Cache :=
  { c with relay := { c.relay with listener := l } }

/-- Nothing is in store while the listener is away. -/
theorem stocked_away (P : List Op → Prop) (c : Cache) : (c.withListener none).Stocked P :=
  fun _ hl => absurd hl (by simp [withListener])

theorem tell_of_silent (h : (l.respond e).1.script = none) (c : Cache) :
    c.tell l e = { c with relay := c.relay.log ⟨e, none, (l.respond e).1.payload⟩ } := by
  simp [tell, Relaying.call, Relaying.react, h, Relaying.relay, Relaying.setRelay]

theorem tell_of_script {script : List Op} (h : (l.respond e).1.script = some script) (c : Cache) :
    c.tell l e = { (c.reaction script).2 with
      relay := (c.reaction script).2.relay.log
        ⟨e, some (c.reaction script).1, (l.respond e).1.payload⟩ } := by
  simp [tell, Relaying.call, Relaying.react, h, Relaying.relay, Relaying.setRelay]

inductive Deliveries : Listener (List Op) → Cache → Nat → Listener (List Op) → Cache → Prop where
  | done {l : Listener (List Op)} {c : Cache} (queue : c.relay.queue = []) : Deliveries l c 0 l c
  | next {l l' : Listener (List Op)} {c c' : Cache} {e : Entry} {rest : List Entry} {n : Nat}
      (queue : c.relay.queue = e :: rest)
      (later : Deliveries (l.respond e).2 ((c.dequeue rest).tell l e) n l' c') :
      Deliveries l c (n + 1) l' c'

theorem deliveries_deliverAll (l : Listener (List Op)) (c : Cache) :
    Deliveries l c (Relaying.deliverAll reaction l c).1 (Relaying.deliverAll reaction l c).2.1
      (Relaying.deliverAll reaction l c).2.2 := by
  fun_induction Relaying.deliverAll reaction l c with
  | case1 l c h => exact .done h
  | case2 l c e rest h w' n l' c' he ih =>
    rw [he] at ih
    exact .next h ih

/-- The courier does nothing without a listener, and delivers everything with one. -/
theorem deliver_cases (c : Cache) :
    (c.relay.listener = none ∧ c.deliver = (0, c)) ∨
    ∃ l n l' c', c.relay.listener = some l ∧ Deliveries l (c.withListener none) n l' c' ∧
      c.deliver = (n, c'.withListener (some l')) := by
  cases hl : c.relay.listener with
  | none => exact Or.inl ⟨rfl, deliver_eq_busy hl⟩
  | some l =>
    refine Or.inr ⟨l, _, _, _, rfl, deliveries_deliverAll l (c.withListener none), ?_⟩
    have hl' : (Relaying.relay c).listener = some l := hl
    simp only [deliver, Relaying.deliver, hl']
    rfl

namespace Deliveries

/-- A delivery ends with an empty queue. -/
theorem queue (h : Deliveries l c n l' c') : c'.relay.queue = [] := by
  induction h with
  | done queue => exact queue
  | next _ _ ih => exact ih

/-- A delivery in which no script runs leaves the engine alone. -/
theorem supply (h : Deliveries l c n l' c') :
    l'.supply < l.supply ∨ l'.supply = l.supply ∧ c'.engine = c.engine := by
  induction h with
  | done => exact Or.inr ⟨rfl, rfl⟩
  | @next l l' c c' e rest n queue later ih =>
    cases hs : (l.respond e).1.script with
    | none =>
      have hsupply := Listener.supply_respond_of_none hs
      rw [tell_of_silent hs] at ih
      rw [← hsupply]
      exact ih
    | some script =>
      have hsupply := Listener.supply_respond_of_some hs
      rcases ih with hlt | ⟨heq, _⟩
      · exact Or.inl (Nat.lt_trans hlt hsupply)
      · exact Or.inl (heq ▸ hsupply)

end Deliveries

/-- Relations between listeners and between caches that a delivery cannot break: being told of the
same entry, with the listener away, keeps both. -/
structure Accord (Q : Listener (List Op) → Listener (List Op) → Prop)
    (R : Cache → Cache → Prop) : Prop where
  queue : ∀ {c c' : Cache}, R c c' → c'.relay.queue = c.relay.queue
  listener : ∀ {c c' : Cache}, R c c' → Option.Rel Q c.relay.listener c'.relay.listener
  away : ∀ {c c' : Cache}, R c c' → R (c.withListener none) (c'.withListener none)
  back : ∀ {c c' : Cache} {l l' : Listener (List Op)}, R c c' → Q l l' →
    R (c.withListener (some l)) (c'.withListener (some l'))
  respond : ∀ {l l' : Listener (List Op)} (e : Entry), Q l l' → Q (l.respond e).2 (l'.respond e).2
  tell : ∀ {c c' : Cache} {l l' : Listener (List Op)} {e : Entry} {rest : List Entry},
    R c c' → Q l l' → c.relay.queue = e :: rest →
      R ((c.dequeue rest).tell l e) ((c'.dequeue rest).tell l' e)

namespace Accord

variable {Q : Listener (List Op) → Listener (List Op) → Prop} {R : Cache → Cache → Prop}
  {d d' : Cache} {l₁ l₁' : Listener (List Op)} {n' : Nat}

theorem deliveries (a : Accord Q R) (h : Deliveries l c n l₁ d) (h' : Deliveries l' c' n' l₁' d')
    (hl : Q l l') (hc : R c c') : n' = n ∧ Q l₁ l₁' ∧ R d d' := by
  induction h generalizing l' c' n' with
  | done queue =>
    cases h' with
    | done => exact ⟨rfl, hl, hc⟩
    | next queue' => cases ((a.queue hc).trans queue).symm.trans queue'
  | next queue _ ih =>
    cases h' with
    | done queue' => cases ((a.queue hc).trans queue).symm.trans queue'
    | next queue' later' =>
      cases ((a.queue hc).trans queue).symm.trans queue'
      obtain ⟨hn, hend⟩ := ih later' (a.respond _ hl) (a.tell hc hl queue)
      exact ⟨congrArg (· + 1) hn, hend⟩

/-- Two deliveries call their listeners as often, and what they leave is related. -/
theorem deliver (a : Accord Q R) (h : R c c') :
    c'.deliver.1 = c.deliver.1 ∧ R c.deliver.2 c'.deliver.2 := by
  have hlistener := a.listener h
  rcases deliver_cases c with ⟨hl, hd⟩ | ⟨l, n, l₁, d, hl, hdel, hd⟩
  · rw [hl] at hlistener
    cases hl' : c'.relay.listener with
    | some l' => rw [hl'] at hlistener; cases hlistener
    | none =>
      rw [hd, deliver_eq_busy hl']
      exact ⟨rfl, h⟩
  · rcases deliver_cases c' with ⟨hl', _⟩ | ⟨l', n', l₁', d', hl', hdel', hd'⟩
    · rw [hl, hl'] at hlistener
      cases hlistener
    · rw [hl, hl'] at hlistener
      cases hlistener with
      | some hsame =>
        obtain ⟨hn, hleft, hend⟩ := a.deliveries hdel hdel' hsame (a.away h)
        rw [hd, hd']
        exact ⟨hn, a.back hend hleft⟩

end Accord

/-- A delivery of nothing does nothing. -/
theorem deliver_of_queue_nil (h : c.relay.queue = []) : c.deliver = (0, c) := by
  rcases deliver_cases c with ⟨_, hd⟩ | ⟨l, n, l', c', hl, hdel, hd⟩
  · exact hd
  · have hqueue : (c.withListener none).relay.queue = [] := h
    cases hdel with
    | next queue _ => cases hqueue.symm.trans queue
    | done =>
      rw [hd, withListener, withListener, ← hl]

/-- The courier of the top level leaves the buffers alone, unless it uses up a script. -/
theorem frugal_deliver : Courier.Frugal deliver := by
  intro c
  rcases deliver_cases c with ⟨_, hd⟩ | ⟨l, n, l', c', hl, hdel, hd⟩
  · rw [hd]
    exact Or.inr ⟨rfl, rfl⟩
  · have hleft : c.scriptsLeft = l.supply := by simp [scriptsLeft, hl]
    rw [hd, hleft]
    rcases hdel.supply with hlt | ⟨heq, hengine⟩
    · exact Or.inl hlt
    · exact Or.inr ⟨heq, by rw [withListener, hengine]; rfl⟩

end Cache

open Cache

/-- A relation that holds across the listener being told of an entry, and across a delivery, for
which the listener is away. -/
structure Telling (R : List Deed → Cache → Cache → Prop) : Prop where
  away : ∀ {c c' : Cache} (l : Option (Listener (List Op))), (c.withListener none).Evolves c' →
    R [] (c.withListener none) c' → R [] c (c'.withListener l)
  notice : ∀ {e : Entry} {rest : List Entry} {reaction : Option (List Step)}
    {payload : Option Payload} {c c' : Cache}, c.relay.queue = e :: rest →
    (c.dequeue rest).Evolves c' →
    R (Notice.deeds ⟨e, reaction, payload⟩) (c.dequeue rest) c' →
    R [] c { c' with relay := c'.relay.log ⟨e, reaction, payload⟩ }

theorem Telling.trivial : Telling fun _ _ _ => True := by
  constructor <;> simp

variable {scope : Scope} {R : List Deed → Cache → Cache → Prop} {c c' : Cache}
  {l l' : Listener (List Op)} {n : Nat} {P : List Op → Prop}

theorem Courier.steady_busy : Courier.busy.Steady P := fun c _ => .refl c

namespace Cache

/-- Being told of an entry, a relation holds. -/
theorem tell_spec (law : Lawful scope Courier.busy R) (tells : Telling R) {e : Entry}
    {rest : List Entry} (hq : c.relay.queue = e :: rest) (hp : c.Proper scope.Allows)
    (hl : l.Stocks scope.Allows) :
    c.Evolves ((c.dequeue rest).tell l e) ∧ R [] c ((c.dequeue rest).tell l e) := by
  have hdequeue : c.Evolves (c.dequeue rest) :=
    ⟨.refl _, id, rfl, rfl, rfl, fun _ h => h, List.prefix_refl _, List.prefix_refl _⟩
  have hlog {c' : Cache} (n : Notice (List Step)) : c'.Evolves { c' with relay := c'.relay.log n } :=
    ⟨.refl _, id, rfl, rfl, rfl, fun _ h => h, List.prefix_append _ _, List.prefix_refl _⟩
  cases hs : (l.respond e).1.script with
  | none =>
    rw [tell_of_silent hs]
    exact ⟨hdequeue.trans (hlog _), tells.notice hq (.refl _) (law.refl _)⟩
  | some script =>
    have hscript := (Listener.stocks_respond hl e).1 script hs
    obtain ⟨hrun, hrel⟩ := Op.runAll_spec law Courier.steady_busy script (c.dequeue rest) hscript
      (hdequeue.proper hp)
    rw [tell_of_script hs]
    exact ⟨hdequeue.trans (hrun.trans (hlog _)), tells.notice hq hrun hrel⟩

theorem tell_evolves {e : Entry} {rest : List Entry} (hq : c.relay.queue = e :: rest)
    (hp : c.Proper scope.Allows) (hl : l.Stocks scope.Allows) :
    c.Evolves ((c.dequeue rest).tell l e) :=
  (tell_spec (.trivial scope _) .trivial hq hp hl).1

theorem Deliveries.spec (h : Deliveries l c n l' c') (law : Lawful scope Courier.busy R)
    (tells : Telling R) (hp : c.Proper scope.Allows) (hl : l.Stocks scope.Allows) :
    c.Evolves c' ∧ R [] c c' ∧ ∀ P, l.Stocks P → l'.Stocks P := by
  induction h with
  | done => exact ⟨.refl _, law.refl _, fun _ h => h⟩
  | @next l l' c c' e rest n queue later ih =>
    obtain ⟨htell, hrel⟩ := tell_spec law tells queue hp hl
    obtain ⟨hlater, hrel', hstocks⟩ := ih (htell.proper hp) (Listener.stocks_respond hl e).2
    exact ⟨htell.trans hlater, law.trans htell hlater hrel hrel',
      fun P hP => hstocks P (Listener.stocks_respond hP e).2⟩

/-- A relation that is lawful for the reactions holds across a delivery. -/
theorem deliver_spec (law : Lawful scope Courier.busy R) (tells : Telling R)
    (hp : c.Proper scope.Allows) : c.Evolves c.deliver.2 ∧ R [] c c.deliver.2 := by
  rcases deliver_cases c with ⟨_, hd⟩ | ⟨l, n, l', c', hl, hdel, hd⟩
  · rw [hd]
    exact ⟨.refl c, law.refl c⟩
  · have haway : (c.withListener none).Proper scope.Allows :=
      ⟨hp.paired, stocked_away _ c⟩
    obtain ⟨hrun, hrel, hstocks⟩ := hdel.spec law tells haway (hp.stocked l hl)
    rw [hd]
    refine ⟨⟨hrun.engine, hrun.paired, hrun.weigher, hrun.lock, hrun.enabled, fun P hP => ?_,
      hrun.notices, hrun.drains⟩, tells.away (some l') hrun hrel⟩
    intro l'' hl''
    cases hl''
    exact hstocks P (hP l hl)

theorem steady_deliver (scope : Scope) : Courier.Steady scope.Allows deliver :=
  fun _ hp => (deliver_spec (.trivial scope _) .trivial hp).1

/-- A run at the top level is a run with the courier of the top level. -/
theorem perform_eq (ops : List Op) (c : Cache) :
    (perform ops c).1.map (·.step) = (Op.runAll deliver ops c).1 ∧
      (perform ops c).2 = (Op.runAll deliver ops c).2 := by
  induction ops generalizing c with
  | nil => exact ⟨rfl, rfl⟩
  | cons op rest ih =>
    obtain ⟨hsteps, hlast⟩ := ih (op.run deliver c).2
    exact ⟨by simpa [perform, Op.runAll] using hsteps, hlast⟩

theorem allDeeds_map_step (reports : List Report) :
    Step.allDeeds (reports.map (·.step)) = reports.flatMap (·.step.deeds) := by
  induction reports with
  | nil => rfl
  | cons report rest ih =>
    rw [List.map_cons, Step.allDeeds, ih]
    rfl

variable {ops : List Op}

/-- A lawful relation holds across a run at the top level. -/
theorem perform_spec (law : Lawful scope deliver R) (hw : Op.allWithin scope ops = true)
    (hp : c.Proper scope.Allows) :
    c.Evolves (perform ops c).2 ∧
      R ((perform ops c).1.flatMap (·.step.deeds)) c (perform ops c).2 := by
  have h := Op.runAll_spec law (steady_deliver scope) ops c hw hp
  rw [← (perform_eq ops c).1, ← (perform_eq ops c).2, allDeeds_map_step] at h
  exact h

/-- The reports show every notice. -/
theorem notices_perform (hw : Op.allWithin scope ops = true) (hp : c.Proper scope.Allows) :
    (perform ops c).2.relay.notices =
      c.relay.notices ++ (perform ops c).1.flatMap (·.notices) := by
  induction ops generalizing c with
  | nil => simp [perform]
  | cons op rest ih =>
    rw [Op.allWithin, Bool.and_eq_true] at hw
    have hop := Op.run_evolves (steady_deliver scope) op c hw.1 hp
    rw [perform, List.flatMap_cons, ← List.append_assoc]
    refine (ih hw.2 (hop.proper hp)).trans (congrArg (· ++ _) ?_)
    exact (List.prefix_iff_eq_append.mp hop.notices).symm

end Cache

namespace Settings

variable {s : Settings} {fresh : Cache}

theorem eq_empty_of_build (h : s.build = .ok fresh) : 0 < s.capacity ∧ fresh = s.empty := by
  unfold build at h
  split at h
  · cases h
  · split at h
    · cases h
      exact ⟨by omega, rfl⟩
    · cases h

/-- Who listens plays no part in whether there is a cache. -/
theorem build_withListener (h : s.build = .ok fresh) (l : Option (Listener (List Op))) :
    { s with listener := l }.build = .ok { s with listener := l }.empty := by
  unfold build at h ⊢
  split at h
  · cases h
  · rename_i hcapacity
    rw [if_neg hcapacity]
    split at h
    · rename_i hroom
      exact if_pos hroom
    · cases h

/-- An empty cache is proper. -/
theorem proper_empty (hs : ∀ l ∈ s.listener, l.Stocks P) : s.empty.Proper P :=
  ⟨(Engine.Accounted.empty ..).toPaired, hs⟩

end Settings

end BoundedCache
