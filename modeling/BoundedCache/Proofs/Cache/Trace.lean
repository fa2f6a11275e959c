import BoundedCache.Proofs.Cache.Deliver

namespace BoundedCache

/-- A deed with the cache that it met. -/
structure Moment where
  deed : Deed
  cache : Cache

namespace Cache

/-- The steps from one cache to another, with the calls that made them. A scope says whether there
are clearings among them. -/
inductive Trace (scope : Scope) : List Moment → Cache → Cache → Prop where
  | refl (c : Cache) : Trace scope [] c c
  | append {ms ms' : List Moment} {c c' c'' : Cache} (first : Trace scope ms c c')
      (later : Trace scope ms' c' c'') : Trace scope (ms ++ ms') c c''
  | relay (c : Cache) (relay : Relay (Listener (List Op)) (List Step)) :
      Trace scope [] c { c with relay }
  | lock (c : Cache) (lockHeld : Bool) : Trace scope [] c { c with lockHeld }
  | drain (c : Cache) : Trace scope [] c c.drained
  | idle {c : Cache} {call : Call} {answer : Answer Step} (gain : call.gain answer = none)
      (loss : call.loss answer = none) (idles : call.idles answer = true) :
      Trace scope [⟨⟨.call call, answer⟩, c⟩] c (c.count (call.tally answer))
  | read {c : Cache} {call : Call} {answer : Answer Step} (id : NodeId)
      (touches : call.touches answer = true) :
      Trace scope [⟨⟨.call call, answer⟩, c⟩] c ((c.count (call.tally answer)).recordRead id)
  | write {c next ready : Cache} {call : Call} {answer : Answer Step} {event : Event}
      {ms : List Moment} {b : Buffers} (write : c.Writes call answer event next)
      (waiting : Trace scope ms next ready)
      (record : ready.engine.buffers.recordOwn event = .ok b) :
      Trace scope (⟨⟨.call call, answer⟩, c⟩ :: ms) c
        { ready with engine := { ready.engine with buffers := b } }
  | stuck {c next : Cache} {call : Call} {answer : Answer Step} {event : Event}
      (write : c.Writes call answer event next) :
      Trace scope [⟨⟨.call call, .blocked⟩, c⟩] c next
  | wait {call : Call} (c : Cache) (locks : call.locks = true) :
      Trace scope [⟨⟨.call call, .blocked⟩, c⟩] c c
  | resize (c : Cache) (capacity : Nat) :
      Trace scope [⟨⟨.call (.setCapacity capacity), .done⟩, c⟩] c { c with capacity }
  | tidy (c : Cache) : Trace scope [⟨⟨.call .cleanUp, .done⟩, c⟩] c c
  | clear (c : Cache) (allowed : scope.call .clear = true) :
      Trace scope [⟨⟨.call .clear, .count c.cleared.1⟩, c⟩] c c.cleared.2

/-- There is a trace that holds the given deeds and those of the reactions that were logged. -/
def Traced (scope : Scope) (ds : List Deed) (c c' : Cache) : Prop :=
  ∃ told ms, c'.relay.notices = c.relay.notices ++ told ∧ Trace scope ms c c' ∧
    (ms.map (·.deed)).Perm (ds ++ told.flatMap Notice.deeds)

structure Traces (scope : Scope) (courier : Courier) : Prop where
  steady : courier.Steady scope.Allows
  traced : ∀ c : Cache, c.Proper scope.Allows → Traced scope [] c (courier c).2

variable {scope : Scope} {courier : Courier} {c c' c'' : Cache} {ds ds' : List Deed}
  {ms : List Moment} {call : Call} {answer : Answer Step} {event : Event}

/-- No reaction was logged on the way. -/
theorem Trace.traced (h : Trace scope ms c c') (hn : c'.relay.notices = c.relay.notices) :
    Traced scope (ms.map (·.deed)) c c' :=
  ⟨[], ms, by simp [hn], h, by simp⟩

namespace Traced

theorem trans (h : Traced scope ds c c') (h' : Traced scope ds' c' c'') :
    Traced scope (ds ++ ds') c c'' := by
  obtain ⟨told, ms, hn, ht, hp⟩ := h
  obtain ⟨told', ms', hn', ht', hp'⟩ := h'
  refine ⟨told ++ told', ms ++ ms', by rw [hn', hn, List.append_assoc], .append ht ht', ?_⟩
  rw [List.map_append, List.flatMap_append]
  refine (hp.append hp').trans ?_
  rw [List.append_assoc, List.append_assoc]
  exact (List.perm_append_comm_assoc _ _ _).append_left ds

theorem drain (hc : Traces scope courier) (hp : c.Proper scope.Allows) :
    Traced scope [] c (c.drain courier) :=
  ((Trace.drain c).traced (notices_drained c)).trans (hc.traced _ ((Evolves.drained c).proper hp))

/-- A writer gets its event in after any number of drains, and may drain once more. -/
theorem write (hc : Traces scope courier) (hp : c.Proper scope.Allows) {next : Cache}
    (hw : c.Writes call answer event next) (hr : next.recordWrite courier event = some c') :
    Traced scope [⟨.call call, answer⟩] c c' := by
  obtain ⟨ready, b, hdrains, hb, rfl⟩ := recordWithin_eq_some hr
  have hnext := hw.evolves.proper hp
  have hready := (hdrains.evolves hc.steady hnext).proper hnext
  obtain ⟨told, ms, hn, hwaiting, hperm⟩ := hdrains.rel (R := Traced scope [])
    (fun c => (Trace.refl c).traced rfl) (fun _ _ h h' => h.trans h')
    (fun _ hp => drain hc hp) hc.steady hnext
  have hrecorded : Traced scope [⟨.call call, answer⟩] c
      { ready with engine := { ready.engine with buffers := b } } :=
    ⟨told, _, by rw [← hw.relay_eq]; exact hn, .write hw hwaiting hb, hperm.cons _⟩
  rcases settled_cases courier b ready with he | he
  · rw [he]
    exact hrecorded
  · rw [he]
    exact hrecorded.trans (drain hc ((Evolves.rebuffer hb).proper hready))

end Traced

/-- What calls do can be traced. -/
theorem lawful_traced (hc : Traces scope courier) (hrecord : ∀ kind, scope.record kind = false) :
    Lawful scope courier (Traced scope) where
  refl c := (Trace.refl c).traced rfl
  trans _ _ h h' := h.trans h'
  call := by
    intro call answer c c' hcall hp hperforms
    cases hperforms with
    | idle hgain hloss hidles => exact (Trace.idle hgain hloss hidles).traced rfl
    | reads _ _ _ htouches => exact (Trace.read _ htouches).traced (by simp)
    | writes hw hr => exact .write hc hp hw hr
    | stuck hw => exact (Trace.stuck hw).traced (by rw [hw.relay_eq])
    | waits _ hlocks => exact (Trace.wait c hlocks).traced rfl
    | @setCapacity capacity =>
      exact ((Trace.resize c capacity).traced rfl).trans
        (.drain hc ((Evolves.recap c capacity).proper hp))
    | cleanUp => exact ((Trace.tidy c).traced rfl).trans (.drain hc hp)
    | clear =>
      have hnotices : c.cleared.2.relay.notices = c.relay.notices := by rw [cleared_eq]
      exact ((Trace.clear c hcall).traced hnotices).trans
        (hc.traced _ ((Evolves.cleared c).proper hp))
  record h := absurd h (by simp [hrecord])
  hold := by
    intro ds c c' _ _ h
    have hbefore := (@Trace.lock scope c true).traced rfl
    have hafter := (@Trace.lock scope c' c.lockHeld).traced rfl
    simpa using (hbefore.trans h).trans hafter

/-- The deeds of a reaction are told of with its notice. -/
theorem telling_traced (scope : Scope) : Telling (Traced scope) where
  away := by
    intro c c' l _ h
    have hbefore := (@Trace.relay scope c (c.withListener none).relay).traced rfl
    have hafter := (@Trace.relay scope c' (c'.withListener l).relay).traced rfl
    exact (hbefore.trans h).trans hafter
  notice := by
    intro e rest reaction payload c c' _ _ h
    obtain ⟨told, ms, hn, htrace, hperm⟩ := h
    refine ⟨told ++ [⟨e, reaction, payload⟩], ms, ?_, ?_, ?_⟩
    · rw [Relay.log, hn, List.append_assoc]
      rfl
    · have hbefore := @Trace.relay scope c (c.dequeue rest).relay
      have hafter := @Trace.relay scope c' (c'.relay.log ⟨e, reaction, payload⟩)
      simpa using (hbefore.append htrace).append hafter
    · rw [List.flatMap_append, List.flatMap_singleton, List.nil_append]
      exact hperm.trans List.perm_append_comm

theorem traces_busy (scope : Scope) : Traces scope Courier.busy :=
  ⟨Courier.steady_busy, fun c _ => (Trace.refl c).traced rfl⟩

theorem traces_deliver (hrecord : ∀ kind, scope.record kind = false) : Traces scope deliver :=
  ⟨steady_deliver scope, fun _ hp =>
    (deliver_spec (lawful_traced (traces_busy scope) hrecord) (telling_traced scope) hp).2⟩

/-- A run can be traced, with the calls that its reports show. -/
theorem exists_trace {s : Settings} {ops : List Op} (hrecord : ∀ kind, scope.record kind = false)
    (hops : Op.allWithin scope ops = true) (hscripts : ∀ l ∈ s.listener, l.Stocks scope.Allows) :
    ∃ ms, Trace scope ms s.empty (perform ops s.empty).2 ∧
      (ms.map (·.deed)).Perm ((perform ops s.empty).1.flatMap Report.deeds) := by
  have hp := Settings.proper_empty hscripts
  obtain ⟨told, ms, hn, htrace, hperm⟩ :=
    (perform_spec (lawful_traced (traces_deliver hrecord) hrecord) hops hp).2
  have htold : told.flatMap Notice.deeds = (perform ops s.empty).2.reactions := by
    rw [reactions, hn]
    rfl
  rw [htold] at hperm
  exact ⟨ms, htrace, hperm.trans (perm_deeds (notices_perform hops hp)).symm⟩

end Cache

end BoundedCache
