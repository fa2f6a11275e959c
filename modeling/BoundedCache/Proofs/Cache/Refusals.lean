import Mathlib
import BoundedCache.Proofs.Cache.Acts
import BoundedCache.Proofs.Cache.Bisimulation
import BoundedCache.Proofs.Cache.Moves

namespace BoundedCache

/-- The weigher refuses the value that the call brings along. -/
def Call.Vain (w : Weigher) (call : Call) : Prop :=
  ∃ value message, call.offer? = some value ∧ w value = .error message

/-- The call gets as far as weighing its value: a replacement does so once its key is found mapped.
-/
def Call.Weighs (c : Cache) : Call → Prop
  | .put .. | .putIfAbsent .. => True
  | .replace key _ | .replaceIf key .. => (c.engine.store.get? key).isSome
  | _ => False

inductive Op.Vain (w : Weigher) : Op → Prop where
  | call {call : Call} (vain : call.Vain w) : Vain w (.call call)
  | interrupted {call : Call} (vain : call.Vain w) (meanwhile : List Op) :
      Vain w (.interrupted call meanwhile)

structure Step.Vain (w : Weigher) (step : Step) : Prop where
  call : ∃ call : Call, step.act = .call call ∧ call.Vain w
  alone : step.meanwhile = none

/-- The second operations are the first ones, less some calls with a refused value. -/
inductive Op.Trims (w : Weigher) : List Op → List Op → Prop where
  | nil : Trims w [] []
  | drop {op : Op} {rest rest' : List Op} (vain : op.Vain w) (later : Trims w rest rest') :
      Trims w (op :: rest) rest'
  | keep (op : Op) {rest rest' : List Op} (later : Trims w rest rest') :
      Trims w (op :: rest) (op :: rest')
  | interrupted (call : Call) {ops ops' rest rest' : List Op} (inner : Trims w ops ops')
      (later : Trims w rest rest') : Trims w (.interrupted call ops :: rest)
        (.interrupted call ops' :: rest')
  | hold {ops ops' rest rest' : List Op} (inner : Trims w ops ops') (later : Trims w rest rest') :
      Trims w (.hold ops :: rest) (.hold ops' :: rest')
  | contended {ops ops' rest rest' : List Op} (inner : Trims w ops ops')
      (later : Trims w rest rest') : Trims w (.contended ops :: rest) (.contended ops' :: rest')
  | discard {ops ops' rest rest' : List Op} (inner : Trims w ops ops')
      (later : Trims w rest rest') : Trims w (.discard ops :: rest) (.discard ops' :: rest')
  | repeated (times : Nat) {ops ops' rest rest' : List Op} (inner : Trims w ops ops')
      (later : Trims w rest rest') : Trims w (.repeated times ops :: rest)
        (.repeated times ops' :: rest')

inductive Step.Trims (w : Weigher) : List Step → List Step → Prop where
  | nil : Trims w [] []
  | drop {step : Step} {rest rest' : List Step} (vain : step.Vain w) (later : Trims w rest rest') :
      Trims w (step :: rest) rest'
  | keep (step : Step) {rest rest' : List Step} (later : Trims w rest rest') :
      Trims w (step :: rest) (step :: rest')
  | meanwhile (step : Step) {steps steps' rest rest' : List Step} (inner : Trims w steps steps')
      (later : Trims w rest rest') : Trims w ({ step with meanwhile := some steps } :: rest)
        ({ step with meanwhile := some steps' } :: rest')
  | steps (step : Step) {steps steps' rest rest' : List Step} (inner : Trims w steps steps')
      (later : Trims w rest rest') : Trims w ({ step with answer := .steps steps } :: rest)
        ({ step with answer := .steps steps' } :: rest')
  | discarded (step : Step) (n : Nat) {steps steps' rest rest' : List Step}
      (inner : Trims w steps steps') (later : Trims w rest rest') :
      Trims w ({ step with answer := .discarded n steps } :: rest)
        ({ step with answer := .discarded n steps' } :: rest')

/-- The second reports are the first ones, less reports of calls with a refused value, in which
nobody was told of anything and nothing was drained. What is told otherwise is related by `N`. -/
inductive Report.Trims (w : Weigher) (N : Notice (List Step) → Notice (List Step) → Prop) :
    List Report → List Report → Prop where
  | nil : Trims w N [] []
  | drop {report : Report} {rest rest' : List Report} (vain : report.step.Vain w)
      (notices : report.notices = []) (drains : report.drains = [])
      (later : Trims w N rest rest') : Trims w N (report :: rest) rest'
  | keep {report report' : Report} {rest rest' : List Report}
      (step : Step.Trims w [report.step] [report'.step])
      (notices : List.Forall₂ N report.notices report'.notices)
      (drains : report'.drains = report.drains) (later : Trims w N rest rest') :
      Trims w N (report :: rest) (report' :: rest')

structure Notice.Trims (w : Weigher) (n n' : Notice (List Step)) : Prop where
  entry : n'.entry = n.entry
  reaction : Option.Rel (Step.Trims w) n.reaction n'.reaction
  payload : n'.payload = n.payload

abbrev Listener.Stock.Trims (w : Weigher) : List (Key × List (List Op)) →
    List (Key × List (List Op)) → Prop :=
  List.Forall₂ fun p p' => p'.1 = p.1 ∧ List.Forall₂ (Op.Trims w) p.2 p'.2

structure Listener.Trims (w : Weigher) (l l' : Listener (List Op)) : Prop where
  failing : l'.failing = l.failing
  scripts : Listener.Stock.Trims w l.scripts l'.scripts

structure Relay.Trims (w : Weigher) (r r' : Relay (Listener (List Op)) (List Step)) : Prop where
  enabled : r'.enabled = r.enabled
  listener : Option.Rel (Listener.Trims w) r.listener r'.listener
  queue : r'.queue = r.queue
  failures : r'.failures = r.failures
  notices : List.Forall₂ (Notice.Trims w) r.notices r'.notices

/-- Caches with the weigher `w` that differ in the scripts of the listener alone, and in what it
reported of them. -/
structure Cache.Trims (w : Weigher) (c c' : Cache) : Prop where
  same : c' = { c with relay := c'.relay }
  weigher : c.weigher = w
  relay : c.relay.Trims w c'.relay

variable {w : Weigher} {c c' : Cache} {call : Call} {value : Value} {message : String}

namespace Cache

theorem weigh_of_error (h : c.weigher value = .error message) : c.weigh value = .error message := by
  rw [weigh, h]

end Cache

open Cache

/-- A call with a refused value leaves the cache as it is, at whatever point it weighs the value. If
it gets there it is refused. -/
theorem Call.start_of_refused (ho : call.offer? = some value)
    (hw : c.weigher value = .error message) (courier : Courier) :
    ∃ answer, call.start courier c = .settled answer c ∧
      (call.Weighs c → answer = .refused message) := by
  have hweigh := weigh_of_error hw
  cases call with
  | put key offered | putIfAbsent key offered =>
    cases ho
    rw [start, startInsert, hweigh]
    exact ⟨_, rfl, fun _ => rfl⟩
  | replace key offered =>
    cases ho
    rw [start, Cache.replace, hweigh]
    cases hk : c.engine.store.get? key with
    | none => exact ⟨_, rfl, fun h => by simp [Weighs, hk] at h⟩
    | some id => exact ⟨_, rfl, fun _ => rfl⟩
  | replaceIf key expected offered =>
    cases ho
    rw [start, startReplaceIf, hweigh]
    cases hk : c.engine.store.get? key with
    | none => exact ⟨_, rfl, fun h => by simp [Weighs, hk] at h⟩
    | some id => exact ⟨_, rfl, fun _ => rfl⟩
  | _ => cases ho

/-- Of a call with a refused value nothing is left but its step. -/
theorem Op.Vain.run {op : Op} (h : op.Vain c.weigher) (courier : Courier) :
    ∃ step, step.Vain c.weigher ∧ op.run courier c = (step, c) := by
  cases h with
  | @call call vain | @interrupted call vain meanwhile =>
    obtain ⟨value, message, ho, hw⟩ := vain
    obtain ⟨answer, hstart, -⟩ := call.start_of_refused ho hw courier
    refine ⟨c.step (.call call) answer none, ⟨⟨call, rfl, value, message, ho, hw⟩, rfl⟩, ?_⟩
    simp only [Op.run, Call.run, hstart, Progress.finish]

section

variable {R : Cache → Cache → Prop} {courier courier' : Courier}

/-- A block whose steps are trimmed, and what comes after it. -/
theorem Abreast.block {r r' rest rest' : List Step × Cache} (h : Abreast (Step.Trims w) R r r')
    (B : Bisimulation R courier courier') (hrest : Abreast (Step.Trims w) R rest rest') :
    Abreast (Step.Trims w) R (r.2.step .block (.steps r.1) none :: rest.1, rest.2)
      (r'.2.step .block (.steps r'.1) none :: rest'.1, rest'.2) := by
  rw [B.step h.cache]
  exact ⟨.steps (Cache.step _ _ .done none) h.report hrest.report, hrest.cache⟩

/-- Trimmed operations do the same to caches that no operation tells apart, and report the same of
all that is left. -/
theorem Op.Trims.runAll {ops ops' : List Op} (h : Op.Trims w ops ops')
    (B : Bisimulation R courier courier') (hw : ∀ {c c'}, R c c' → c.weigher = w)
    {c c' : Cache} (hc : R c c') :
    Abreast (Step.Trims w) R (Op.runAll courier ops c) (Op.runAll courier' ops' c') := by
  induction h generalizing c c' with
  | nil => exact ⟨.nil, hc⟩
  | drop vain _ ih =>
    obtain ⟨step, hstep, hrun⟩ := Vain.run (hw hc ▸ vain) courier
    have hlater := ih hc
    rw [Op.runAll, hrun]
    exact ⟨.drop (hw hc ▸ hstep) hlater.report, hlater.cache⟩
  | keep op _ ih =>
    have hop := Op.run_bisim B op hc
    have hlater := ih hop.cache
    unfold Op.runAll
    dsimp only
    rw [← hop.report]
    exact ⟨.keep _ hlater.report, hlater.cache⟩
  | interrupted call _ _ ihInner ih =>
    have hstart := call.start_bisim B hc
    unfold Op.runAll Op.run
    generalize call.start courier c = p at hstart ⊢
    generalize call.start courier' c' = p' at hstart ⊢
    cases hstart with
    | settled cache =>
      have hlater := ih cache
      dsimp only
      rw [B.step cache]
      exact ⟨.keep _ hlater.report, hlater.cache⟩
    | gap s =>
      have hinner := ihInner hc
      have hrest := s.resume_bisim B hinner.cache
      have hlater := ih hrest.cache
      dsimp only
      rw [← hrest.report, B.step hrest.cache]
      exact ⟨.meanwhile (Cache.step _ _ _ none) hinner.report hlater.report, hlater.cache⟩
  | hold _ _ ihInner ih =>
    have hinner := B.underLock ihInner hc
    exact hinner.block B (ih hinner.cache)
  | contended _ _ ihInner ih =>
    have hinner := ihInner hc
    exact hinner.block B (ih hinner.cache)
  | discard _ _ ihInner ih =>
    have hinner := B.discard .nil ihInner hc
    have hlater := ih hinner.cache
    unfold Op.runAll Op.run
    dsimp only
    rw [hinner.report.1, B.step hinner.cache]
    exact ⟨.discarded (Cache.step _ _ .done none) _ hinner.report.2 hlater.report, hlater.cache⟩
  | repeated times _ _ ihInner ih =>
    have hinner := Bisimulation.repeated .nil ihInner hc times
    exact hinner.block B (ih hinner.cache)

/-- The first of some operations is left out, or stays, trimmed inside. -/
theorem Op.Trims.uncons {op : Op} {rest ops' : List Op} (h : Op.Trims w (op :: rest) ops') :
    (op.Vain w ∧ Op.Trims w rest ops') ∨
      ∃ op' rest', ops' = op' :: rest' ∧ Op.Trims w [op] [op'] ∧ Op.Trims w rest rest' := by
  cases h with
  | drop vain later => exact .inl ⟨vain, later⟩
  | keep _ later => exact .inr ⟨_, _, rfl, .keep _ .nil, later⟩
  | interrupted call inner later => exact .inr ⟨_, _, rfl, .interrupted call inner .nil, later⟩
  | hold inner later => exact .inr ⟨_, _, rfl, .hold inner .nil, later⟩
  | contended inner later => exact .inr ⟨_, _, rfl, .contended inner .nil, later⟩
  | discard inner later => exact .inr ⟨_, _, rfl, .discard inner .nil, later⟩
  | repeated times inner later => exact .inr ⟨_, _, rfl, .repeated times inner .nil, later⟩

/-- So it is with whole runs of the top level, if what the listener was told of is related too. -/
theorem Op.Trims.perform {N : Notice (List Step) → Notice (List Step) → Prop} {ops ops' : List Op}
    (h : Op.Trims w ops ops') (B : Bisimulation R Cache.deliver Cache.deliver)
    (hw : ∀ {c c'}, R c c' → c.weigher = w)
    (hN : ∀ {c c'}, R c c' → List.Forall₂ N c.relay.notices c'.relay.notices)
    {c c' : Cache} (hc : R c c') :
    Abreast (Report.Trims w N) R (Cache.perform ops c) (Cache.perform ops' c') := by
  induction ops generalizing ops' c c' with
  | nil =>
    cases h
    exact ⟨.nil, hc⟩
  | cons op rest ih =>
    rcases h.uncons with ⟨vain, later⟩ | ⟨op', rest', rfl, hop, later⟩
    · obtain ⟨step, hstep, hrun⟩ := Vain.run (hw hc ▸ vain) Cache.deliver
      have hlater := ih later hc
      rw [Cache.perform, hrun]
      exact ⟨.drop (hw hc ▸ hstep) (List.drop_length ..) (List.drop_length ..) hlater.report,
        hlater.cache⟩
    · have hnext := hop.runAll B hw hc
      have hlater := ih later hnext.cache
      have hnotices := List.forall₂_drop c.relay.notices.length (hN hnext.cache)
      have hdrains : (op'.run Cache.deliver c').2.drains = (op.run Cache.deliver c).2.drains := by
        obtain ⟨r, hr⟩ := B.same hnext.cache
        exact congrArg (·.drains) hr
      have hbefore : c'.drains = c.drains := by
        obtain ⟨r, rfl⟩ := B.same hc
        rfl
      unfold Cache.perform
      dsimp only
      rw [← (hN hc).length_eq, hdrains, hbefore]
      exact ⟨.keep hnext.report hnotices rfl hlater.report, hlater.cache⟩

end

namespace Listener

variable {l l' : Listener (List Op)}

theorem Stock.Trims.nextScript {scripts scripts' : List (Key × List (List Op))}
    (h : Stock.Trims w scripts scripts') (key : Key) :
    Option.Rel (fun next next' => Op.Trims w next.1 next'.1 ∧ Stock.Trims w next.2 next'.2)
      (Listener.nextScript key scripts) (Listener.nextScript key scripts') := by
  induction h with
  | nil => exact .none
  | @cons p p' rest rest' hp hrest ih =>
    obtain ⟨k, own⟩ := p
    obtain ⟨k', own'⟩ := p'
    obtain ⟨rfl, hown⟩ := hp
    unfold Listener.nextScript
    split
    · cases hown with
      | nil => exact .none
      | cons hscript hlater => exact .some ⟨hscript, .cons ⟨rfl, hlater⟩ hrest⟩
    · generalize Listener.nextScript key rest = next at ih ⊢
      generalize Listener.nextScript key rest' = next' at ih ⊢
      cases ih with
      | none => exact .none
      | some hnext => exact .some ⟨hnext.1, .cons ⟨rfl, hown⟩ hnext.2⟩

/-- The same reaction, trimmed. -/
theorem Trims.respond (h : l.Trims w l') (e : Entry) :
    Option.Rel (Op.Trims w) (l.respond e).1.script (l'.respond e).1.script ∧
      (l'.respond e).1.payload = (l.respond e).1.payload ∧
      (l.respond e).2.Trims w (l'.respond e).2 := by
  have hnext := Stock.Trims.nextScript h.scripts e.key
  unfold Listener.respond
  rw [h.failing]
  cases l.failing.lookup e.key with
  | some payload => exact ⟨.none, rfl, h⟩
  | none =>
    dsimp only
    generalize Listener.nextScript e.key l.scripts = next at hnext ⊢
    generalize Listener.nextScript e.key l'.scripts = next' at hnext ⊢
    cases hnext with
    | none => exact ⟨.none, rfl, h⟩
    | some hnext => exact ⟨.some hnext.1, rfl, rfl, hnext.2⟩

theorem Trims.supply_eq (h : l.Trims w l') : l'.supply = l.supply := by
  have hscripts := h.scripts
  unfold supply
  generalize l.scripts = scripts at hscripts ⊢
  generalize l'.scripts = scripts' at hscripts ⊢
  induction hscripts with
  | nil => rfl
  | cons hp _ ih =>
    rw [List.flatMap_cons, List.flatMap_cons, List.length_append, List.length_append, ih,
      hp.2.length_eq]

end Listener

theorem Relay.Trims.enqueue {r r' : Relay (Listener (List Op)) (List Step)} (h : r.Trims w r')
    (e : Entry) : (r.enqueue e).Trims w (r'.enqueue e) := by
  unfold Relay.enqueue
  rw [h.enabled]
  split
  · exact { h with enabled := rfl, queue := congrArg (· ++ [e]) h.queue }
  · exact h

theorem Relay.Trims.log {r r' : Relay (Listener (List Op)) (List Step)} (h : r.Trims w r')
    {n n' : Notice (List Step)} (hn : n.Trims w n') : (r.log n).Trims w (r'.log n') := by
  refine { h with failures := ?_, notices := List.rel_append h.notices (.cons hn .nil) }
  unfold Relay.log
  rw [hn.payload, h.failures]

namespace Cache.Trims

variable {courier courier' : Courier}

/-- The relays of both may change, if they stay so. -/
theorem withRelay (h : c.Trims w c') {r r' : Relay (Listener (List Op)) (List Step)}
    (hr : r.Trims w r') : Trims w { c with relay := r } { c' with relay := r' } where
  same := by rw [h.same]
  weigher := h.weigher
  relay := hr

theorem dequeue (h : c.Trims w c') (rest : List Entry) :
    (c.dequeue rest).Trims w (c'.dequeue rest) :=
  h.withRelay { h.relay with queue := rfl }

theorem withListener (h : c.Trims w c') {l l' : Option (Listener (List Op))}
    (hl : Option.Rel (Listener.Trims w) l l') : (c.withListener l).Trims w (c'.withListener l') :=
  h.withRelay { h.relay with listener := hl }

theorem bisimulation
    (hd : ∀ {c c' : Cache}, c.Trims w c' → Abreast Eq (Cache.Trims w) (courier c) (courier' c')) :
    Bisimulation (Cache.Trims w) courier courier' where
  same h := ⟨_, h.same⟩
  revise h hrelay hweigher := ⟨rfl, hweigher.trans h.weigher, hrelay ▸ h.relay⟩
  enqueue e h := h.withRelay (h.relay.enqueue e)
  queue h := h.relay.queue
  failures h := h.relay.failures
  scripts := by
    intro c c' h
    have hlistener := h.relay.listener
    unfold Cache.scriptsLeft
    generalize c.relay.listener = l at hlistener ⊢
    generalize c'.relay.listener = l' at hlistener ⊢
    cases hlistener with
    | none => rfl
    | some hl => exact hl.supply_eq
  deliver := hd

/-- In a reaction of the listener. -/
theorem busy : Bisimulation (Cache.Trims w) Courier.busy Courier.busy :=
  bisimulation fun h => ⟨rfl, h⟩

/-- A call of the listener runs its script, trimmed. -/
theorem tell {l l' : Listener (List Op)} (h : c.Trims w c') (hl : l.Trims w l') (e : Entry) :
    (c.tell l e).Trims w (c'.tell l' e) := by
  obtain ⟨hscript, hpayload, -⟩ := hl.respond e
  cases hs : (l.respond e).1.script with
  | none =>
    rw [hs] at hscript
    cases hs' : (l'.respond e).1.script with
    | some script' => rw [hs'] at hscript; cases hscript
    | none =>
      rw [tell_of_silent hs, tell_of_silent hs']
      exact h.withRelay (h.relay.log ⟨rfl, .none, hpayload⟩)
  | some script =>
    rw [hs] at hscript
    cases hs' : (l'.respond e).1.script with
    | none => rw [hs'] at hscript; cases hscript
    | some script' =>
      rw [hs'] at hscript
      cases hscript with
      | some hscript =>
        have hrun := hscript.runAll busy Trims.weigher h
        rw [tell_of_script hs, tell_of_script hs']
        exact hrun.cache.withRelay (hrun.cache.relay.log ⟨rfl, .some hrun.report, hpayload⟩)

theorem accord : Accord (Listener.Trims w) (Cache.Trims w) where
  queue h := h.relay.queue
  listener h := h.relay.listener
  away h := h.withListener .none
  back h hl := h.withListener (.some hl)
  respond e hl := (hl.respond e).2.2
  tell h hl _ := (h.dequeue _).tell hl _

/-- At the top level. -/
theorem deliver : Bisimulation (Cache.Trims w) Cache.deliver Cache.deliver :=
  bisimulation fun h => ⟨(accord.deliver h).1.symm, (accord.deliver h).2⟩

end Cache.Trims

namespace Cache

/-- A cache is told apart from itself by nothing. -/
theorem bisimulation_self (w : Weigher) :
    Bisimulation (fun c c' => c' = c ∧ c.weigher = w) Cache.deliver Cache.deliver where
  same h := ⟨_, h.1⟩
  revise := by
    rintro c d r ⟨hsame, hw⟩ hrelay hweigher
    have hr : r = c.relay := congrArg (·.relay) hsame
    rw [hr, ← hrelay]
    exact ⟨rfl, hweigher.trans hw⟩
  enqueue := by
    rintro c _ e ⟨rfl, hw⟩
    exact ⟨rfl, hw⟩
  queue h := by rw [h.1]
  failures h := by rw [h.1]
  scripts h := by rw [h.1]
  deliver := by
    rintro c _ ⟨rfl, hw⟩
    exact ⟨rfl, rfl, (moving_deliver _).weigher.trans hw⟩

/-- A call whose value the weigher refuses changes nothing, and nothing runs in its gap: in whatever
state and with whatever courier, the cache is the same afterwards. Such calls may be left out of a
run, here and there, on their own or inside of other operations: all other operations report the
same, and the run ends with the same cache. They may be left out of the scripts of the listener as
well: then all that differs in the end is what the listener reported of these scripts, and those it
has not run yet. -/
theorem refusals_immaterial (c : Cache) :
    (∀ (courier : Courier) (call : Call) (value : Value) (message : String) (meanwhile : List Op),
      call.offer? = some value → c.weigher value = .error message →
        ∃ answer, (Op.call call).run courier c = (c.step (.call call) answer none, c) ∧
          (Op.interrupted call meanwhile).run courier c = (c.step (.call call) answer none, c) ∧
          (call.Weighs c → answer = .refused message)) ∧
    (∀ ops ops' : List Op, Op.Trims c.weigher ops ops' →
      (perform ops' c).2 = (perform ops c).2 ∧
        Report.Trims c.weigher Eq (perform ops c).1 (perform ops' c).1) ∧
    ∀ (c' : Cache) (ops ops' : List Op), c.Trims c.weigher c' → Op.Trims c.weigher ops ops' →
      (perform ops c).2.Trims c.weigher (perform ops' c').2 ∧
        Report.Trims c.weigher (Notice.Trims c.weigher) (perform ops c).1 (perform ops' c').1 := by
  refine ⟨?_, ?_, ?_⟩
  · intro courier call value message meanwhile ho hw
    obtain ⟨answer, hstart, hrefused⟩ := call.start_of_refused ho hw courier
    refine ⟨answer, ?_, ?_, hrefused⟩
    · simp only [Op.run, Call.run, hstart, Progress.finish]
    · simp only [Op.run, hstart]
  · intro ops ops' hops
    have hrun := hops.perform (bisimulation_self c.weigher) (N := Eq) (fun h => h.2)
      (fun h => by rw [h.1, List.forall₂_eq_eq_eq]) ⟨rfl, rfl⟩
    exact ⟨hrun.cache.1, hrun.report⟩
  · intro c' ops ops' hc hops
    have hrun := hops.perform Trims.deliver Trims.weigher (fun h => h.relay.notices) hc
    exact ⟨hrun.cache, hrun.report⟩

def fussy : Settings :=
  { capacity := 3, weigher := Weigher.byteLength
    listener := some { scripts := [("e", [[.call (.put "f" "!6"), .call (.get "a")]])] } }

def fussyTrimmed : Settings :=
  { fussy with listener := some { scripts := [("e", [[.call (.get "a")]])] } }

/-- Refused calls on their own, interrupted, under a foreign lock and in the gap of a call; one of
them does not find its key and is not refused. -/
def refusedCalls : List Op :=
  [.call (.put "a" "1"), .call (.put "b" "!2"), .interrupted (.replace "a" "!3") [.call .clear],
    .hold [.call (.putIfAbsent "c" "!4"), .call (.get "a")],
    .interrupted (.replaceIf "a" "1" "22") [.call (.replace "d" "!5"), .call (.put "e" "33")],
    .call .cleanUp]

def refusedCallsTrimmed : List Op :=
  [.call (.put "a" "1"), .hold [.call (.get "a")],
    .interrupted (.replaceIf "a" "1" "22") [.call (.put "e" "33")], .call .cleanUp]

theorem refusals_immaterial_fussy :
    let (reports, last) := perform refusedCalls fussy.empty
    last.relay.notices.length = 1 ∧ last.length = 1 ∧
      (perform refusedCallsTrimmed fussy.empty).2 = last ∧
      last.Trims Weigher.byteLength (perform refusedCallsTrimmed fussyTrimmed.empty).2 ∧
      Report.Trims Weigher.byteLength (Notice.Trims Weigher.byteLength) reports
        (perform refusedCallsTrimmed fussyTrimmed.empty).1 ∧
      (Op.call (.put "b" "!2")).run deliver last =
        (last.step (.call (.put "b" "!2")) (.refused "weigher rejected !2") none, last) := by
  have hvain {call : Call} {value message : String} (ho : call.offer? = some value)
      (hw : Weigher.byteLength value = .error message) : call.Vain Weigher.byteLength :=
    ⟨value, message, ho, hw⟩
  have hops : Op.Trims Weigher.byteLength refusedCalls refusedCallsTrimmed :=
    .keep _ <| .drop (.call (hvain rfl rfl)) <| .drop (.interrupted (hvain rfl rfl) _) <|
      .hold (.drop (.call (hvain rfl rfl)) <| .keep _ .nil) <|
      .interrupted _ (.drop (.call (hvain rfl rfl)) <| .keep _ .nil) <| .keep _ .nil
  have hscript : Op.Trims Weigher.byteLength [.call (.put "f" "!6"), .call (.get "a")]
      [.call (.get "a")] := .drop (.call (hvain rfl rfl)) <| .keep _ .nil
  have hempty : fussy.empty.Trims Weigher.byteLength fussyTrimmed.empty :=
    ⟨rfl, rfl, rfl, .some ⟨rfl, .cons ⟨rfl, .cons hscript .nil⟩ .nil⟩, rfl, rfl, .nil⟩
  obtain ⟨-, hsame, htrimmed⟩ := refusals_immaterial fussy.empty
  obtain ⟨hlast, -⟩ := hsame _ _ hops
  obtain ⟨hend, hreports⟩ := htrimmed _ _ _ hempty hops
  obtain ⟨answer, hrun, -, hanswer⟩ := (refusals_immaterial (perform refusedCalls fussy.empty).2).1
    deliver (.put "b" "!2") "!2" "weigher rejected !2" [] rfl (by cbv)
  cases hanswer trivial
  exact ⟨by cbv, by cbv, hlast, hend, hreports, hrun⟩

end Cache

end BoundedCache
