import Mathlib
import BoundedCache.Proofs.Cache.AtEase
import BoundedCache.Proofs.Engine.Live

namespace BoundedCache

def gains (ds : List Deed) : List Entry := ds.filterMap Deed.gain

def losses (ds : List Deed) : List Entry := ds.filterMap Deed.loss

namespace Cache

/-- What of a pair can still be found: notices, queued entries, live pairs, and what reactions were
handed. -/
def worth (pair : Entry) (c : Cache) : Nat :=
  c.told.count pair + c.relay.queue.count pair + c.engine.live.count pair +
    (losses c.reactions).count pair

def debt (pair : Entry) (c : Cache) : Nat := (gains c.reactions).count pair

/-- If every write has come to its end, what came in is what went out or is still there. -/
def Balanced (ds : List Deed) (c c' : Cache) : Prop :=
  (∀ d ∈ ds, d.ended = true) → (∀ d ∈ c'.reactions, d.ended = true) →
    c.relay.enabled = true → ∀ pair, c'.debt pair + (gains ds).count pair + c.worth pair =
      c.debt pair + (losses ds).count pair + c'.worth pair

variable {c c' c'' : Cache} {ds ds' : List Deed} {event : Event} {call : Call}
  {answer : Answer Step} {courier : Courier} {scope : Scope} {pair : Entry}

/-- Engine and relay alone matter. -/
theorem balanced_of_eq (hl : c'.engine.live = c.engine.live) (hq : c'.relay.queue = c.relay.queue)
    (hn : c'.relay.notices = c.relay.notices) : Balanced [] c c' := by
  intro _ _ _ pair
  simp [worth, debt, told, reactions, hl, hq, hn, gains, losses]

theorem Balanced.trans (h : c.Evolves c') (h' : c'.Evolves c'') (hb : Balanced ds c c')
    (hb' : Balanced ds' c' c'') : Balanced (ds ++ ds') c c'' := by
  intro hds hlater henabled pair
  have hds' := List.forall_mem_append.mp hds
  have hearlier : ∀ d ∈ c'.reactions, d.ended = true :=
    fun d hd => hlater d (h'.mem_reactions hd)
  have hfirst := hb hds'.1 hearlier henabled pair
  have hsecond := hb' hds'.2 hlater (h.enabled.trans henabled) pair
  simp only [gains, losses, List.filterMap_append, List.count_append] at hfirst hsecond ⊢
  omega

/-- The write of a call gains one live pair or none, and loses one or none. -/
theorem Writes.perm_live (hw : c.Writes call answer event c') (hp : c.engine.Paired) :
    ((call.gain answer).toList ++ c.engine.live).Perm
      ((call.loss answer).toList ++ c'.engine.live) := by
  cases hw with
  | replace hgain hloss _ hq =>
    rw [hgain, hloss]
    exact (hp.live_replace hq).symm
  | @insert _ fresh _ hgain hloss _ ht =>
    rw [hgain, hloss]
    exact .of_eq (hp.live_insert ht fresh).symm
  | retire hgain hloss hq ht =>
    rw [hgain, hloss]
    exact hp.live_retire hq ht

structure Tallies (scope : Scope) (courier : Courier) : Prop where
  steady : courier.Steady scope.Allows
  keeps : ∀ c : Cache, c.Proper scope.Allows → Balanced [] c (courier c).2

/-- A drain queues the pairs that it evicts. -/
theorem balanced_drained (hp : c.engine.Paired) : Balanced [] c c.drained := by
  intro _ _ henabled pair
  have hlive := (hp.live_run c.capacity).count_eq pair
  have hqueue : c.drained.relay.queue = c.relay.queue ++ (c.engine.run c.capacity).1.victims := by
    rw [relay_drained, Relay.enqueueAll_eq, if_pos henabled]
  simp only [worth, debt, told, reactions, hqueue, notices_drained, engine_drained, gains, losses,
    List.filterMap_nil, List.count_nil, List.count_append] at hlive ⊢
  omega

theorem Tallies.drain (hc : Tallies scope courier) (hp : c.Proper scope.Allows) :
    Balanced [] c (c.drain courier) := by
  have hdrained := Evolves.drained c
  have hp' := hdrained.proper hp
  exact Balanced.trans hdrained (hc.steady _ hp') (balanced_drained hp.paired) (hc.keeps _ hp')

/-- Getting an event in moves no pair but by drains. -/
theorem Tallies.recordWrite (hc : Tallies scope courier)
    (hr : c.recordWrite courier event = some c') (hp : c.Proper scope.Allows) :
    Balanced [] c c' :=
  recordWrite_rel (R := Balanced []) (fun _ => balanced_of_eq rfl rfl rfl) Balanced.trans
    (fun _ _ => balanced_of_eq rfl rfl rfl) (fun _ hp => hc.drain hp) hc.steady hp hr

/-- A deed that moves no pair does not show in the ledger. -/
theorem Balanced.of_idle {d : Deed} (h : Balanced [] c c') (hgain : d.gain = none)
    (hloss : d.loss = none) : Balanced [d] c c' := by
  intro _ hlater henabled pair
  have hb := h (by simp) hlater henabled pair
  simpa [gains, losses, hgain, hloss] using hb

theorem Writes.balanced (hw : c.Writes call answer event c') (hp : c.engine.Paired) :
    Balanced [⟨.call call, answer⟩] c c' := by
  intro _ _ _ pair
  have hlive := (hw.perm_live hp).count_eq pair
  rw [List.count_append, List.count_append] at hlive
  have hgains : gains [⟨.call call, answer⟩] = (call.gain answer).toList := by
    cases hg : call.gain answer <;> simp [gains, Deed.gain, hg]
  have hlosses : losses [⟨.call call, answer⟩] = (call.loss answer).toList := by
    cases hl : call.loss answer <;> simp [losses, Deed.loss, hl]
  simp only [worth, debt, told, reactions, hw.relay_eq, hgains, hlosses]
  omega

/-- The ledger is kept across every call but a clearing. -/
theorem lawful_balanced (hc : Tallies scope courier) (hclear : scope.call .clear = false) :
    Lawful scope courier Balanced where
  refl c := balanced_of_eq rfl rfl rfl
  trans := Balanced.trans
  call := by
    intro call answer c c' hcall hp hperforms
    have hpaired := hp.paired
    cases hperforms with
    | idle hgain hloss =>
      exact (balanced_of_eq rfl rfl rfl).of_idle hgain hloss
    | reads hgain hloss =>
      refine Balanced.of_idle ?_ hgain hloss
      unfold recordRead
      split <;> exact balanced_of_eq rfl rfl rfl
    | writes hw hr =>
      have hp' := hw.evolves.proper hp
      exact Balanced.trans hw.evolves (.recordWrite hr hc.steady hp') (hw.balanced hpaired)
        (hc.recordWrite hr hp')
    | stuck hw =>
      obtain ⟨-, -, -, -, hstalls⟩ := Call.sorts_of_writes hw.moves
      intro hds
      have hended := hds _ (List.mem_singleton_self _)
      simp [Deed.ended, Deed.does, hstalls] at hended
    | waits =>
      obtain ⟨hgain, hloss⟩ := call.moves_blocked
      exact (balanced_of_eq rfl rfl rfl).of_idle hgain hloss
    | @setCapacity capacity =>
      have hrecap := Evolves.recap c capacity
      have hp' := hrecap.proper hp
      have hsame : Balanced [] c { c with capacity } := balanced_of_eq rfl rfl rfl
      have hdrain := Balanced.trans hrecap (.drain hc.steady hp') hsame (hc.drain hp')
      exact hdrain.of_idle rfl rfl
    | cleanUp => exact (hc.drain hp).of_idle rfl rfl
    | clear => rw [hclear] at hcall; cases hcall
  record := by
    intro key stripe kind c _ hp
    refine Balanced.of_idle ?_ rfl rfl
    rcases probe_record_cases hp.paired courier key stripe kind with he | ⟨id, last, b, _, _, he⟩
    · rw [he]
      exact balanced_of_eq rfl rfl rfl
    · rw [he]
      exact balanced_of_eq rfl rfl rfl
  hold _ _ h := h

/-- An entry that the listener is told of leaves the queue and becomes a notice. -/
theorem telling_balanced : Telling Balanced where
  away _ _ h := h
  notice := by
    intro e rest reaction payload c c' hq _ h _ hlater henabled pair
    have hall : ∀ d ∈ c'.reactions ++ Notice.deeds ⟨e, reaction, payload⟩,
        d.ended = true := by
      simpa [reactions, Relay.log] using hlater
    have hboth := List.forall_mem_append.mp hall
    have hrun := h hboth.2 hboth.1 henabled pair
    have hreactions : reactions { c' with relay := c'.relay.log ⟨e, reaction, payload⟩ } =
        c'.reactions ++ Notice.deeds ⟨e, reaction, payload⟩ := by
      simp [reactions, Relay.log]
    have htold : told { c' with relay := c'.relay.log ⟨e, reaction, payload⟩ } = c'.told ++ [e] := by
      simp [told, Relay.log]
    have hworth : c.worth pair = (c.dequeue rest).worth pair + [e].count pair := by
      simp only [worth, told, reactions, hq, dequeue, List.count_cons, List.count_nil]
      omega
    have hdebt : (c.dequeue rest).debt pair = c.debt pair := rfl
    have hlogged : worth pair { c' with relay := c'.relay.log ⟨e, reaction, payload⟩ } =
        c'.worth pair + [e].count pair +
          (losses (Notice.deeds ⟨e, reaction, payload⟩)).count pair := by
      simp only [worth, hreactions, htold, Relay.queue_log, losses, List.filterMap_append,
        List.count_append]
      omega
    have howed : debt pair { c' with relay := c'.relay.log ⟨e, reaction, payload⟩ } =
        c'.debt pair + (gains (Notice.deeds ⟨e, reaction, payload⟩)).count pair := by
      simp only [debt, hreactions, gains, List.filterMap_append, List.count_append]
    have hnone : (gains []).count pair = 0 ∧ (losses []).count pair = 0 := ⟨rfl, rfl⟩
    omega

theorem tallies_busy (scope : Scope) : Tallies scope Courier.busy :=
  ⟨Courier.steady_busy, fun _ _ => balanced_of_eq rfl rfl rfl⟩

theorem tallies_deliver (hclear : scope.call .clear = false) : Tallies scope deliver :=
  ⟨steady_deliver scope, fun _ hp =>
    (deliver_spec (lawful_balanced (tallies_busy scope) hclear) telling_balanced hp).2⟩

end Cache

def Scope.keeping : Scope := { call := fun call => call ≠ .clear, hold := true }

namespace Cache

variable {s : Settings} {fresh : Cache} {l : Listener (List Op)} {ops : List Op}

/-- No value is lost or duplicated: once each write of a run has come to its end, the pairs that
calls have put in are those that calls have handed out, those that the listener was told of and
those that are alive. -/
theorem perm_gains (hbuild : s.build = .ok fresh) (hlistener : s.listener = some l)
    (hscripts : l.Stocks Scope.keeping.Allows) (hops : Op.allWithin .keeping ops = true)
    (hended : ∀ d ∈ (perform ops fresh).1.flatMap Report.deeds, d.ended = true) :
    (gains ((perform ops fresh).1.flatMap Report.deeds)).Perm
      (losses ((perform ops fresh).1.flatMap Report.deeds) ++
        (perform ops fresh).1.flatMap (fun report => report.notices.map (·.entry)) ++
        (perform ops fresh).2.engine.live) := by
  obtain ⟨_, rfl⟩ := Settings.eq_empty_of_build hbuild
  have hscripts' : ∀ l ∈ s.listener, l.Stocks Scope.keeping.Allows := by
    simpa [hlistener] using hscripts
  have hp := Settings.proper_empty hscripts'
  have hnotices := notices_perform hops hp
  obtain ⟨hsteps, hreactions⟩ := forall_deeds hnotices hended
  have hbalanced := (perform_spec (lawful_balanced (tallies_deliver rfl) rfl) hops hp).2 hsteps
    hreactions (by simp [Settings.empty, Relay.ofListener, hlistener])
  have hqueue := ((atEase_empty s).perform hops hp).queue
  have hdeeds := perm_deeds hnotices
  have htold : (perform ops s.empty).2.told =
      (perform ops s.empty).1.flatMap (fun report => report.notices.map (·.entry)) := by
    rw [told, hnotices]
    exact List.map_flatMap
  rw [List.perm_iff_count]
  intro pair
  have hpair := hbalanced pair
  have hin := (hdeeds.filterMap Deed.gain).count_eq pair
  have hout := (hdeeds.filterMap Deed.loss).count_eq pair
  have hstart : s.empty.worth pair = 0 ∧ s.empty.debt pair = 0 := ⟨rfl, rfl⟩
  have hend : (perform ops s.empty).2.worth pair =
      (perform ops s.empty).2.told.count pair + (perform ops s.empty).2.engine.live.count pair +
        (losses (perform ops s.empty).2.reactions).count pair := by
    rw [worth, hqueue]
    rfl
  rw [List.filterMap_append, List.count_append] at hin hout
  rw [← htold, List.count_append, List.count_append]
  simp only [debt, gains, losses] at hpair hstart hend ⊢
  omega

def narrow : Settings :=
  { capacity := 1, listener := some { scripts := [("a", [[.call (.put "a" "again")]])] } }

/-- Writes of two keys, in the gap of one another and under a foreign lock, where a clean-up waits.
-/
def trades : List Op :=
  [.call (.put "a" "1"), .call (.put "a" "2"),
    .interrupted (.putIfAbsent "b" "3") [.call (.put "b" "4"), .call (.removeIf "b" "4")],
    .hold [.call (.put "a" "5"), .call .cleanUp, .call (.replaceIf "a" "5" "6"),
      .call (.put "b" "7")],
    .call (.remove "b")]

theorem perm_gains_trades :
    (gains ((perform trades narrow.empty).1.flatMap Report.deeds)).Perm
      (losses ((perform trades narrow.empty).1.flatMap Report.deeds) ++
        (perform trades narrow.empty).1.flatMap (fun report => report.notices.map (·.entry)) ++
        (perform trades narrow.empty).2.engine.live) := by
  have hscripts :
      Listener.Stocks ⟨[], [("a", [[.call (.put "a" "again")]])]⟩ Scope.keeping.Allows := by
    simp [Listener.Stocks, Scope.Allows, Op.allWithin, Op.within, Scope.keeping]
  have hended :
      ((perform trades narrow.empty).1.flatMap Report.deeds).all (·.ended) = true := by cbv
  exact perm_gains (s := narrow) rfl rfl hscripts rfl (List.all_eq_true.mp hended)

end Cache

end BoundedCache
