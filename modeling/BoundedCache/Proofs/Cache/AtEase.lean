import BoundedCache.Proofs.Cache.Deliver

namespace BoundedCache.Cache

variable {c c' : Cache} {scope : Scope} {ops : List Op} {event : Event}

structure Attended (c : Cache) : Prop where
  listener : c.relay.enabled = c.relay.listener.isSome
  queue : c.relay.enabled = false → c.relay.queue = []

structure AtEase (c : Cache) : Prop where
  listener : c.relay.enabled = c.relay.listener.isSome
  queue : c.relay.queue = []

theorem AtEase.of_eq (h : c.AtEase) (hr : c'.relay = c.relay) : c'.AtEase :=
  ⟨hr ▸ h.listener, hr ▸ h.queue⟩

theorem AtEase.attended (h : c.AtEase) : c.Attended := ⟨h.listener, fun _ => h.queue⟩

theorem Attended.drained (h : c.Attended) : c.drained.Attended := by
  refine ⟨?_, fun he => ?_⟩
  · rw [listener_drained, (Evolves.drained c).enabled, h.listener]
  · rw [(Evolves.drained c).enabled] at he
    rw [relay_drained, Relay.enqueueAll_eq, he]
    exact h.queue he

/-- A delivery finds the listener and empties the queue. -/
theorem Attended.deliver (h : c.Attended) (hp : c.Proper scope.Allows) : c.deliver.2.AtEase := by
  have henabled := (steady_deliver scope c hp).enabled
  rcases deliver_cases c with ⟨hl, hd⟩ | ⟨l, n, l', c', hl, hdel, hd⟩
  · rw [hd]
    exact ⟨h.listener, h.queue (by rw [h.listener, hl]; rfl)⟩
  · rw [hd] at henabled ⊢
    refine ⟨?_, hdel.queue⟩
    rw [henabled, h.listener, hl]
    rfl

theorem AtEase.drain (h : c.AtEase) (hp : c.Proper scope.Allows) :
    (c.drain Cache.deliver).AtEase :=
  h.attended.drained.deliver ((Evolves.drained c).proper hp)

theorem AtEase.recordWrite (h : c.AtEase) (hp : c.Proper scope.Allows)
    (hr : c.recordWrite Cache.deliver event = some c') : c'.AtEase := by
  have hsteady := steady_deliver scope
  obtain ⟨ready, b, hd, hb, rfl⟩ := recordWithin_eq_some hr
  have hready : ready.Proper scope.Allows ∧ ready.AtEase :=
    hd.keeps (I := fun c => c.Proper scope.Allows ∧ c.AtEase)
      (fun _ _ h => ⟨(Evolves.drain hsteady h.1).proper h.1, h.2.drain h.1⟩) ⟨hp, h⟩
  have hrecorded : AtEase { ready with engine := { ready.engine with buffers := b } } :=
    hready.2.of_eq rfl
  rcases settled_cases Cache.deliver b ready with he | he
  · rw [he]
    exact hrecorded
  · rw [he]
    exact hrecorded.drain ((Evolves.rebuffer hb).proper hready.1)

theorem lawful_atEase (scope : Scope) :
    Lawful scope deliver fun _ c c' => c.AtEase → c'.AtEase where
  refl _ h := h
  trans _ _ h h' hc := h' (h hc)
  call := by
    intro call answer c c' _ hp hperforms h
    cases hperforms with
    | idle => exact h.of_eq rfl
    | reads => exact h.of_eq (relay_recordRead ..)
    | @writes _ _ _ next _ hw hr =>
      have hnext : next.AtEase := h.of_eq hw.relay_eq
      exact hnext.recordWrite (hw.evolves.proper hp) hr
    | stuck hw => exact h.of_eq hw.relay_eq
    | waits => exact h
    | @setCapacity capacity =>
      have hcap : AtEase { c with capacity } := h.of_eq rfl
      exact hcap.drain ((Evolves.recap c capacity).proper hp)
    | cleanUp => exact h.drain hp
    | clear =>
      have hcleared : c.cleared.2.AtEase := h.of_eq (by rw [cleared_eq])
      exact hcleared.attended.deliver ((Evolves.cleared c).proper hp)
  record := by
    intro key stripe kind c _ hp h
    rcases probe_record_cases hp.paired deliver key stripe kind with he | ⟨id, last, b, _, _, he⟩
    · exact h.of_eq (by rw [he])
    · exact h.of_eq (by rw [he])
  hold _ _ h hc := (h (hc.of_eq rfl)).of_eq rfl

/-- Between two operations of the top level no entry waits for the listener. -/
theorem AtEase.perform (h : c.AtEase) (hw : Op.allWithin scope ops = true)
    (hp : c.Proper scope.Allows) : (perform ops c).2.AtEase :=
  (perform_spec (lawful_atEase scope) hw hp).2 h

theorem atEase_empty (s : Settings) : s.empty.AtEase := ⟨rfl, rfl⟩

end BoundedCache.Cache
