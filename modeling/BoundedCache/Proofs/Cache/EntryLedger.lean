import BoundedCache.Proofs.Cache.Conservation
import BoundedCache.Proofs.Cache.Credits
import BoundedCache.Proofs.Cache.Trace

namespace BoundedCache

/-- Only a clearing clears. -/
theorem Call.cleared_eq_zero {call : Call} (h : call ≠ .clear) (answer : Answer Step) :
    call.cleared answer = 0 := by
  unfold cleared
  split
  · exact absurd rfl h
  · rfl

namespace Cache

variable {c c' c'' : Cache} {ds ds' : List Deed} {call : Call} {answer : Answer Step}
  {event : Event} {scope : Scope} {ms : List Moment}

/-- Nor is a write a clearing. -/
theorem Writes.cleared_eq_zero (hw : c.Writes call answer event c') (other : Answer Step) :
    call.cleared other = 0 := by
  obtain ⟨-, -, -, -, hstalls⟩ := Call.sorts_of_writes hw.moves
  refine Call.cleared_eq_zero ?_ other
  rintro rfl
  cases hstalls

/-- What was counted between two caches, held against the deeds. A call that has replaced a value
and waits for ever has no answer to show for it. -/
structure EntryLedger (ds : List Deed) (c c' : Cache) : Prop where
  paired : c'.engine.Paired
  entries : c'.engine.live.length + c'.counters.removals + c'.counters.evictions + clearings ds +
    c.counters.inserts =
      c.engine.live.length + c.counters.removals + c.counters.evictions + c'.counters.inserts
  accesses : c'.counters.hits + c'.counters.misses =
    c.counters.hits + c.counters.misses + ds.countP (·.does Call.gets)
  updates : ∃ waiting ≤ ds.countP (·.does Call.stalls),
    c'.counters.updates = c.counters.updates + ds.countP (·.does Call.replaces) + waiting

namespace EntryLedger

theorem trans (h : EntryLedger ds c c') (h' : EntryLedger ds' c' c'') :
    EntryLedger (ds ++ ds') c c'' := by
  obtain ⟨waiting, hw, hu⟩ := h.updates
  obtain ⟨waiting', hw', hu'⟩ := h'.updates
  have hentries := h.entries
  have hentries' := h'.entries
  have haccesses := h.accesses
  have haccesses' := h'.accesses
  refine ⟨h'.paired, ?_, ?_, waiting + waiting', ?_, ?_⟩
  · rw [clearings_append]
    omega
  · rw [List.countP_append]
    omega
  · rw [List.countP_append]
    omega
  · rw [List.countP_append]
    omega

/-- Nodes, store and counters alone matter. -/
theorem of_eq (hp : c.engine.Paired) (hpool : c'.engine.pool = c.engine.pool)
    (hstore : c'.engine.store = c.engine.store) (hc : c'.counters = c.counters) :
    EntryLedger [] c c' := by
  have hlive : c'.engine.live = c.engine.live := by
    rw [Engine.live, Engine.live, hpool, hstore]
  refine ⟨hp.of_eq hpool hstore, ?_, ?_, 0, Nat.le_refl _, ?_⟩
  · rw [hlive, hc]
    rfl
  · rw [hc]
    rfl
  · rw [hc]
    rfl

/-- A dropped read is not counted as an access once more. -/
theorem recordRead (hp : c.engine.Paired) (id : NodeId) : EntryLedger [] c (c.recordRead id) := by
  unfold Cache.recordRead
  split
  · exact of_eq hp rfl rfl rfl
  · exact ⟨hp, rfl, rfl, 0, Nat.le_refl _, rfl⟩

/-- An access is counted as a hit or as a miss, and any other idle call not at all. -/
theorem count {f : Counters → Counters} (hp : c.engine.Paired) (hcall : call ≠ .clear)
    (hreplaces : call.replaces answer = false)
    (haccesses : (f c.counters).hits + (f c.counters).misses =
      c.counters.hits + c.counters.misses + if call.gets answer then 1 else 0)
    (hothers : f c.counters =
      { c.counters with hits := (f c.counters).hits, misses := (f c.counters).misses }) :
    EntryLedger [⟨.call call, answer⟩] c (c.count f) := by
  have hcounters : (c.count f).counters =
      { c.counters with hits := (f c.counters).hits, misses := (f c.counters).misses } := hothers
  refine ⟨hp, ?_, ?_, 0, Nat.zero_le _, ?_⟩
  · simp [hcounters, clearings, Deed.cleared, Call.cleared_eq_zero hcall]
  · simpa [hcounters, Deed.does, List.countP_cons] using haccesses
  · simp [hcounters, Deed.does, hreplaces]

/-- A drain evicts what it counts. -/
theorem drained (hp : c.engine.Paired) : EntryLedger [] c c.drained := by
  have hlive := (hp.live_run c.capacity).length_eq
  rw [List.length_append] at hlive
  refine ⟨?_, ?_, ?_, 0, Nat.zero_le _, ?_⟩
  · rw [engine_drained]
    exact hp.run c.capacity
  · rw [counters_drained, evictions_drained, engine_drained]
    simp only [clearings, List.map_nil, List.sum_nil]
    omega
  · rw [counters_drained]
    rfl
  · rw [counters_drained]
    rfl

/-- A write counts the entry that it puts in, exchanges or takes out. -/
theorem writes (hw : c.Writes call answer event c') (hp : c.engine.Paired) :
    EntryLedger [⟨.call call, answer⟩] c c' := by
  have hlive := (hw.perm_live hp).length_eq
  obtain ⟨hgets, -⟩ := Call.sorts_of_writes hw.moves
  have hcleared : clearings [⟨.call call, answer⟩] = 0 := by
    simp [clearings, Deed.cleared, hw.cleared_eq_zero]
  have hcounters := hw.counters_eq
  have hmoves := hw.moves
  rcases hg : call.gain answer with _ | new <;> rcases hl : call.loss answer with _ | old
  · exact absurd hmoves (by simp [hg, hl])
  all_goals
    obtain ⟨hreplaces, htally⟩ := Call.tally_of_writes hg hl c.counters
    rw [htally rfl] at hcounters
    refine ⟨hw.evolves.paired hp, ?_, ?_, 0, Nat.zero_le _, ?_⟩
    · simp [hg, hl] at hlive
      simp [hcounters, hcleared]
      omega
    · simp [hcounters, Deed.does, hgets]
    · simp [hcounters, Deed.does, hreplaces]

/-- A deed that is neither an access nor a clearing and has replaced nothing does not show. -/
theorem plain (h : EntryLedger [] c c') (hgets : call.gets answer = false)
    (hreplaces : call.replaces answer = false) (hcleared : call.cleared answer = 0) :
    EntryLedger [⟨.call call, answer⟩] c c' := by
  obtain ⟨hpaired, hentries, haccesses, waiting, hwaiting, hupdates⟩ := h
  refine ⟨hpaired, ?_, ?_, waiting, Nat.le_trans hwaiting (Nat.zero_le _), ?_⟩
  · simpa [clearings, Deed.cleared, hcleared] using hentries
  · simpa [Deed.does, hgets] using haccesses
  · simpa [Deed.does, hreplaces] using hupdates

/-- A write whose event never gets in has been counted, but has no answer to show for it. -/
theorem stuck (hw : c.Writes call answer event c') (hp : c.engine.Paired) :
    EntryLedger [⟨.call call, .blocked⟩] c c' := by
  obtain ⟨hgets, -, -, hstalls, hwriter⟩ := Call.sorts_of_writes hw.moves
  have hblocked : call.replaces .blocked = false ∧ call.gets .blocked = false :=
    ⟨by cases call <;> rfl, hgets⟩
  obtain ⟨hpaired, hentries, haccesses, waiting, hwaiting, hupdates⟩ := writes hw hp
  simp [Deed.does, hstalls] at hwaiting
  refine ⟨hpaired, ?_, ?_, if call.replaces answer then 1 else 0, ?_, ?_⟩
  · simpa [clearings, Deed.cleared, hw.cleared_eq_zero] using hentries
  · simpa [Deed.does, hgets, hblocked] using haccesses
  · simp only [List.countP_singleton, Deed.does, hwriter]
    split <;> simp
  · simpa [Deed.does, hblocked, hwaiting] using hupdates

/-- A clearing answers how many entries it has taken out. -/
theorem cleared (hp : c.engine.Paired) :
    EntryLedger [⟨.call .clear, .count c.cleared.1⟩] c c.cleared.2 := by
  have hnone : c.engine.clear.2.live = [] :=
    List.filterMap_eq_nil_iff.mpr fun m _ => by simp [hp.held_clear]
  have hcount := hp.clear_count
  rw [cleared_eq]
  refine ⟨hp.clear, ?_, rfl, 0, Nat.zero_le _, rfl⟩
  simp [clearings, Deed.cleared, Call.cleared, hnone, hcount]
  omega

end EntryLedger

/-- Each step of a trace keeps the ledger. -/
theorem Trace.entryLedger (h : Trace scope ms c c') (hp : c.engine.Paired) :
    EntryLedger (ms.map (·.deed)) c c' := by
  induction h with
  | refl c => exact .of_eq hp rfl rfl rfl
  | append _ _ ih ih' =>
    rw [List.map_append]
    exact (ih hp).trans (ih' (ih hp).paired)
  | relay | lock => exact .of_eq hp rfl rfl rfl
  | drain c => exact .drained hp
  | @idle c call answer hgain hloss hidles =>
    have htally := Call.tally_of_idles hgain hloss hidles c.counters
    refine .count hp ?_ (Call.replaces_eq_false_of_gain hgain) ?_ ?_
    · rintro rfl
      cases hidles
    · rw [htally]
      split <;> rfl
    · rw [htally]
      split <;> rfl
  | @read c call answer id htouches =>
    obtain ⟨hreplaces, _, _, htally⟩ := Call.tally_of_touches htouches c.counters
    have hcounted : EntryLedger [⟨.call call, answer⟩] c (c.count (call.tally answer)) := by
      refine .count hp ?_ hreplaces ?_ ?_
      · rintro rfl
        cases htouches
      · rw [htally]
        split
        · exact Nat.add_right_comm ..
        · rfl
      · rw [htally]
        split <;> rfl
    exact hcounted.trans (.recordRead hcounted.paired id)
  | @write c next ready call answer event ms b hw _ _ ih =>
    have hwritten := EntryLedger.writes hw hp
    have hready := ih hwritten.paired
    have hrecorded : EntryLedger [] ready
        { ready with engine := { ready.engine with buffers := b } } :=
      .of_eq hready.paired rfl rfl rfl
    simpa using (hwritten.trans hready).trans hrecorded
  | stuck hw => exact .stuck hw hp
  | @wait call c hlocks =>
    have hsame : EntryLedger [] c c := .of_eq hp rfl rfl rfl
    refine hsame.plain ?_ ?_ ?_
    · cases call <;> first | rfl | cases hlocks
    · cases call <;> rfl
    · cases call <;> rfl
  | resize | tidy =>
    refine EntryLedger.plain ?_ rfl rfl rfl
    exact .of_eq hp rfl rfl rfl
  | clear c _ => exact .cleared hp

variable {s : Settings} {fresh : Cache} {ops : List Op}

/-- Entries are counted in and out. What is alive, and what removals, evictions and clearings have
taken out, is what was put in; each look that counts is a hit or a miss, and each replaced value an
update, that of a call which then waits for ever and has no answer included. -/
theorem entries_accounted (hbuild : s.build = .ok fresh)
    (hscripts : ∀ l ∈ s.listener, l.Stocks Scope.calls.Allows)
    (hops : Op.allWithin .calls ops = true) :
    let last := (perform ops fresh).2
    let deeds := (perform ops fresh).1.flatMap Report.deeds
    last.engine.live.length = last.length ∧
      last.length + last.metrics.removals + last.metrics.evictions + clearings deeds =
        last.metrics.inserts ∧
      last.metrics.hits + last.metrics.misses = deeds.countP (·.does Call.gets) ∧
      (∃ waiting ≤ deeds.countP (·.does Call.stalls),
        last.metrics.updates = deeds.countP (·.does Call.replaces) + waiting) ∧
      ((∀ d ∈ deeds, d.returned = true) →
        last.metrics.updates = deeds.countP (·.does Call.replaces)) := by
  obtain ⟨_, rfl⟩ := Settings.eq_empty_of_build hbuild
  obtain ⟨ms, htrace, hperm⟩ := exists_trace (fun _ => rfl) hops hscripts
  obtain ⟨hpaired, hentries, haccesses, waiting, hwaiting, hupdates⟩ :=
    htrace.entryLedger (Settings.proper_empty hscripts).paired
  have hlength : (perform ops s.empty).2.engine.live.length = (perform ops s.empty).2.length :=
    hpaired.length_live
  have hempty : s.empty.engine.live.length = 0 ∧ s.empty.counters = {} := ⟨rfl, rfl⟩
  have hclearings : clearings (ms.map (·.deed)) =
      clearings ((perform ops s.empty).1.flatMap Report.deeds) :=
    (hperm.map Deed.cleared).sum_nat
  rw [hempty.2] at hentries haccesses hupdates
  rw [hperm.countP_eq] at haccesses hwaiting hupdates
  refine ⟨hlength, ?_, ?_, ⟨waiting, hwaiting, ?_⟩, fun hreturned => ?_⟩
  · rw [hlength, hempty.1, hclearings] at hentries
    simpa [metrics] using hentries
  · simpa [metrics] using haccesses
  · simpa [metrics] using hupdates
  · rw [countP_stalls_of_returned hreturned] at hwaiting
    rw [Nat.le_zero.mp hwaiting] at hupdates
    simpa [metrics] using hupdates

def restless : Settings :=
  { capacity := 2
    listener := some
      { scripts := [("a", [[.call (.put "x" "1"), .call (.get "x")]]), ("b", [[.call .clear]])] } }

def turmoil : List Op :=
  [.call (.put "a" "1"), .call (.put "a" "2"), .call (.get "a"), .call (.get "z"),
    .interrupted (.put "b" "3") [.call (.put "b" "4"), .call (.removeIf "b" "4")],
    .hold [.call (.put "c" "5"), .call (.replaceIf "c" "5" "6"), .call (.get "c")],
    .contended [.call (.put "d" "7"), .call (.replace "d" "8")], .call (.put "e" "9"),
    .call (.remove "e"), .call (.put "f" "10"), .call .cleanUp, .call .clear, .call (.put "g" "11")]

theorem entries_accounted_turmoil :
    let last := (perform turmoil restless.empty).2
    let deeds := (perform turmoil restless.empty).1.flatMap Report.deeds
    (last.length, last.metrics.inserts, last.metrics.removals, last.metrics.evictions,
        clearings deeds) = (1, 9, 2, 3, 3) ∧
      last.length + last.metrics.removals + last.metrics.evictions + clearings deeds =
        last.metrics.inserts ∧
      last.metrics.hits + last.metrics.misses = deeds.countP (·.does Call.gets) ∧
      last.metrics.updates = deeds.countP (·.does Call.replaces) := by
  have hscripts : ∀ l ∈ restless.listener, l.Stocks Scope.calls.Allows := by
    rintro l ⟨⟩
    unfold Listener.Stocks Scope.Allows
    decide
  obtain ⟨-, hentries, haccesses, -, hupdates⟩ := entries_accounted (s := restless) rfl hscripts
    (show Op.allWithin .calls turmoil = true from rfl)
  have hreturned :
      ((perform turmoil restless.empty).1.flatMap Report.deeds).all (·.returned) = true := by cbv
  exact ⟨by cbv, hentries, haccesses, hupdates (List.all_eq_true.mp hreturned)⟩

end Cache

end BoundedCache
