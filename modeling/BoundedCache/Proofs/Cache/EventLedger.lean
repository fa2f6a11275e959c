import BoundedCache.Proofs.Cache.Conservation
import BoundedCache.Proofs.Cache.Fidelity
import BoundedCache.Proofs.Cache.Trace

namespace BoundedCache

structure Buffers.Fit (b : Buffers) : Prop where
  sound : b.Sound
  count : 0 < b.count
  room : ∀ i, (b.queue i).length ≤ b.room

namespace Buffers.Fit

variable {b b' : Buffers} {i : Nat} {event : Event}

theorem emptied (h : b.Fit) : b.emptied.Fit :=
  ⟨sound_emptied b, by simpa using h.count, fun i => by simp [queue_emptied]⟩

theorem record (h : b.Fit) (hr : b.record i event = .ok b') : b'.Fit := by
  obtain ⟨_, hlt, hb⟩ := record_eq_ok hr
  have hroom : b'.room = b.room := by
    rw [hb]
    rfl
  refine ⟨sound_record h.sound hr, ?_, fun j => ?_⟩
  · rw [hb, count_setBuffer]
    exact h.count
  · rw [queue_record hr, hroom]
    split
    · rw [List.length_append]
      exact hlt
    · exact h.room j

theorem ofLevel (level room thread : Nat) : (Buffers.ofLevel level room thread).Fit := by
  refine ⟨sound_ofLevel level room thread, count_ofLevel_pos level room thread, fun i => ?_⟩
  simp only [Buffers.ofLevel, queue, buffer, List.getElem?_replicate]
  split <;> exact Nat.zero_le _

end Buffers.Fit

/-- How many events the counted calls have left, those of kept values apart. -/
def Counters.recorded (n : Counters) : Nat := n.hits + n.inserts + n.updates + n.removals

theorem Call.recorded_of_touches {call : Call} {answer : Answer Step}
    (h : call.touches answer = true) (n : Counters) :
    (call.tally answer n).recorded + (if call.keeps answer then 1 else 0) = n.recorded + 1 := by
  obtain ⟨-, -, hkeeps, htally⟩ := tally_of_touches h n
  rw [htally, hkeeps]
  cases call.gets answer <;> simp [Counters.recorded]
  omega

namespace Cache

def replayed (c : Cache) : Nat := (c.drains.map (·.replayed)).sum

def ownFull (c : Cache) : Bool :=
  (c.engine.buffers.queue c.engine.buffers.own).length == c.engine.buffers.room

end Cache

def Moment.drops (m : Moment) : Bool := m.deed.does Call.touches && m.cache.ownFull

namespace Cache

variable {c c' c'' : Cache} {call : Call} {answer : Answer Step} {event : Event} {scope : Scope}
  {ms ms' : List Moment}

/-- A drain counts what it replays. -/
theorem replayed_drained (hs : c.engine.buffers.Sound) :
    c.drained.replayed = c.replayed + c.engine.buffers.pending := by
  have hrun : (c.engine.run c.capacity).1.replayed = c.engine.buffers.pending := by
    show c.engine.replay.1 = _
    rw [Engine.replay_eq _ hs, Buffers.pending_eq]
  unfold Cache.drained
  dsimp only
  split
  · simp [replayed, hrun]
  · rename_i hnot
    simp only [Outcome.notable, Bool.or_eq_true, not_or, decide_eq_true_eq] at hnot
    show c.replayed = _
    omega

/-- A read leaves an event, or is counted as dropped where the buffer is full. -/
theorem recordRead_cases (hf : c.engine.buffers.Fit) (id : NodeId) :
    (c.ownFull = false ∧ ∃ b, c.engine.buffers.recordOwn ⟨.read, id⟩ = .ok b ∧
        c.recordRead id = { c with engine := { c.engine with buffers := b } }) ∨
      (c.ownFull = true ∧
        c.recordRead id = c.count fun n => { n with droppedReads := n.droppedReads + 1 }) := by
  unfold recordRead
  split
  · rename_i b hb
    obtain ⟨-, hlt, -⟩ := Buffers.record_eq_ok hb
    exact .inl ⟨by simp [ownFull, Nat.ne_of_lt hlt], b, hb, rfl⟩
  · rename_i back hb
    have hnot := Buffers.record_eq_error_iff.mp ⟨back, hb⟩
    have hroom := hf.room c.engine.buffers.own
    have hfull : (c.engine.buffers.queue c.engine.buffers.own).length = c.engine.buffers.room :=
      Nat.le_antisymm hroom (Nat.le_of_not_lt fun hlt => hnot ⟨Buffers.own_lt hf.count, hlt⟩)
    exact .inr ⟨by simp [ownFull, hfull], rfl⟩

/-- A write is counted before its event is recorded. -/
theorem Writes.recorded_eq (hw : c.Writes call answer event c') :
    c'.counters.recorded = c.counters.recorded + 1 ∧
      c'.counters.droppedReads = c.counters.droppedReads := by
  have hcounters := hw.counters_eq
  have hmoves := hw.moves
  rcases hg : call.gain answer with _ | new <;> rcases hl : call.loss answer with _ | old
  · exact absurd hmoves (by simp [hg, hl])
  all_goals
    rw [(Call.tally_of_writes hg hl c.counters).2 rfl] at hcounters
    rw [hcounters]
    simp +arith [Counters.recorded]

/-- The events between two caches, held against the deeds. A write that waits for ever was counted,
but its event has not got in. -/
structure EventLedger (ms : List Moment) (c c' : Cache) : Prop where
  fit : c'.engine.buffers.Fit
  events : c'.counters.recorded + ms.countP (·.deed.does Call.keeps) + c.replayed +
    c.engine.buffers.pending + c.counters.droppedReads =
      c.counters.recorded + c'.replayed + c'.engine.buffers.pending + c'.counters.droppedReads +
        ms.countP (·.deed.does Call.stalls)
  dropped : c'.counters.droppedReads = c.counters.droppedReads + ms.countP Moment.drops

namespace EventLedger

theorem trans (h : EventLedger ms c c') (h' : EventLedger ms' c' c'') :
    EventLedger (ms ++ ms') c c'' := by
  have hevents := h.events
  have hevents' := h'.events
  have hdropped := h.dropped
  have hdropped' := h'.dropped
  refine ⟨h'.fit, ?_, ?_⟩
  · rw [List.countP_append, List.countP_append]
    omega
  · rw [List.countP_append]
    omega

/-- Buffers, counters and drains alone matter. -/
theorem of_eq (hf : c.engine.buffers.Fit) (hb : c'.engine.buffers = c.engine.buffers)
    (hc : c'.counters = c.counters) (hd : c'.drains = c.drains) : EventLedger [] c c' := by
  refine ⟨hb ▸ hf, ?_, ?_⟩
  · rw [replayed, replayed, hb, hc, hd]
    rfl
  · rw [hc]
    rfl

theorem count (hf : c.engine.buffers.Fit) {f : Counters → Counters}
    (hr : (f c.counters).recorded = c.counters.recorded)
    (hd : (f c.counters).droppedReads = c.counters.droppedReads) :
    EventLedger [] c (c.count f) := by
  have hcounters : (c.count f).counters = f c.counters := rfl
  refine ⟨hf, ?_, ?_⟩
  · rw [hcounters, hr, hd]
    rfl
  · rw [hcounters, hd]
    rfl

/-- A moment that is neither a read nor a stalled write does not show. -/
theorem plain (h : EventLedger [] c c') (cache : Cache) (htouches : call.touches answer = false)
    (hstalls : call.stalls answer = false) : EventLedger [⟨⟨.call call, answer⟩, cache⟩] c c' := by
  have hkeeps := Call.keeps_eq_false_of_touches htouches
  obtain ⟨hfit, hevents, hdropped⟩ := h
  refine ⟨hfit, ?_, ?_⟩
  · simpa [Deed.does, hkeeps, hstalls] using hevents
  · simpa [Moment.drops, Deed.does, htouches] using hdropped

theorem drained (hf : c.engine.buffers.Fit) : EventLedger [] c c.drained := by
  have hbuffers := buffers_drained hf.sound
  refine ⟨hbuffers ▸ hf.emptied, ?_, ?_⟩
  · have hnone : c.engine.buffers.emptied.pending = 0 := by
      rw [Buffers.pending_eq, Buffers.events_emptied]
      rfl
    have hrecorded : c.drained.counters.recorded = c.counters.recorded := by
      rw [counters_drained]
      rfl
    rw [hrecorded, hbuffers, hnone, replayed_drained hf.sound, droppedReads_drained]
    simp only [List.countP_nil]
    omega
  · rw [droppedReads_drained]
    rfl

/-- A read leaves an event or is dropped, and is counted either way. -/
theorem read (hf : c.engine.buffers.Fit) (htouches : call.touches answer = true) (id : NodeId) :
    EventLedger [⟨⟨.call call, answer⟩, c⟩] c ((c.count (call.tally answer)).recordRead id) := by
  have hrecorded := Call.recorded_of_touches htouches c.counters
  obtain ⟨-, hstalls, -, -⟩ := Call.tally_of_touches htouches c.counters
  obtain ⟨-, hspares⟩ := call.tally_spares answer c.counters
  have hcounted : (c.count (call.tally answer)).engine.buffers.Fit := hf
  rcases recordRead_cases hcounted id with ⟨hroom, b, hb, he⟩ | ⟨hfull, he⟩
  · have hpending := Buffers.pending_record hb
    have hown : c.ownFull = false := hroom
    rw [he]
    refine ⟨hf.record hb, ?_, ?_⟩
    · simp [Deed.does, hstalls, List.countP_cons, Cache.count, replayed, hspares] at hpending ⊢
      omega
    · simp [Moment.drops, hown, Cache.count, hspares]
  · have hown : c.ownFull = true := hfull
    rw [he]
    refine ⟨hf, ?_, ?_⟩
    · simp [Deed.does, hstalls, List.countP_cons, Cache.count, replayed, hspares, Counters.recorded]
      simp only [Counters.recorded] at hrecorded
      omega
    · simp [Moment.drops, Deed.does, htouches, hown, Cache.count, hspares]

/-- A write leaves an event once there is room for it, and drains meanwhile leave theirs. -/
theorem write {next ready : Cache} {b : Buffers} (hf : c.engine.buffers.Fit)
    (hw : c.Writes call answer event next)
    (hwaiting : next.engine.buffers.Fit → EventLedger ms next ready)
    (hr : ready.engine.buffers.recordOwn event = .ok b) :
    EventLedger (⟨⟨.call call, answer⟩, c⟩ :: ms) c
      { ready with engine := { ready.engine with buffers := b } } := by
  obtain ⟨hrecorded, hspares⟩ := hw.recorded_eq
  obtain ⟨hbuffers, hdrains⟩ := hw.unrecorded
  obtain ⟨-, hkeeps, htouches, hstalls, -⟩ := Call.sorts_of_writes hw.moves
  obtain ⟨hfit, hevents, hdropped⟩ := hwaiting (hbuffers ▸ hf)
  have hpending := Buffers.pending_record hr
  rw [replayed, hbuffers, hdrains, hrecorded, hspares] at hevents
  rw [hspares] at hdropped
  refine ⟨hfit.record hr, ?_, ?_⟩
  · simp [Deed.does, hkeeps, hstalls, hpending, replayed] at hevents ⊢
    omega
  · simpa [Moment.drops, Deed.does, htouches] using hdropped

/-- A write that waits for ever has left no event. -/
theorem stuck (hf : c.engine.buffers.Fit) (hw : c.Writes call answer event c') :
    EventLedger [⟨⟨.call call, .blocked⟩, c⟩] c c' := by
  obtain ⟨hrecorded, hspares⟩ := hw.recorded_eq
  obtain ⟨hbuffers, hdrains⟩ := hw.unrecorded
  obtain ⟨-, -, -, -, hstalls⟩ := Call.sorts_of_writes hw.moves
  have hblocked : call.keeps .blocked = false ∧ call.touches .blocked = false := by
    cases call <;> exact ⟨rfl, rfl⟩
  refine ⟨hbuffers ▸ hf, ?_, ?_⟩
  · simp [Deed.does, hblocked, hstalls, replayed, hbuffers, hdrains, hrecorded, hspares]
    omega
  · simp [Moment.drops, Deed.does, hblocked, hspares]

end EventLedger

/-- Each step of a trace without clearings keeps the ledger. -/
theorem Trace.eventLedger (h : Trace scope ms c c') (hclear : scope.call .clear = false)
    (hf : c.engine.buffers.Fit) : EventLedger ms c c' := by
  induction h with
  | refl c => exact .of_eq hf rfl rfl rfl
  | append _ _ ih ih' => exact (ih hf).trans (ih' (ih hf).fit)
  | relay | lock => exact .of_eq hf rfl rfl rfl
  | drain c => exact .drained hf
  | @idle c call answer hgain hloss hidles =>
    have htally := Call.tally_of_idles hgain hloss hidles c.counters
    have hcounted : EventLedger [] c (c.count (call.tally answer)) := by
      refine .count hf ?_ (call.tally_spares answer c.counters).2
      rw [htally]
      split <;> rfl
    exact hcounted.plain c (Call.touches_eq_false_of_idles hidles)
      (Call.stalls_eq_false_of_idles hidles)
  | read id htouches => exact .read hf htouches id
  | write hw _ hr ih => exact .write hf hw ih hr
  | stuck hw => exact .stuck hf hw
  | @wait call c hlocks =>
    have hsame : EventLedger [] c c := .of_eq hf rfl rfl rfl
    refine hsame.plain c ?_ ?_
    · cases call <;> rfl
    · cases call <;> first | rfl | cases hlocks
  | resize c capacity =>
    refine EventLedger.plain ?_ c rfl rfl
    exact .of_eq hf rfl rfl rfl
  | tidy c =>
    refine EventLedger.plain ?_ c rfl rfl
    exact .of_eq hf rfl rfl rfl
  | clear c hallowed => exact absurd hallowed (by simp [hclear])

variable {s : Settings} {fresh : Cache} {ops : List Op}

/-- Events are counted in and out where nothing is cleared. Each hit, each kept value and each
counted write has left an event, which drains have replayed, which still waits, or which was that of
a dropped read. Only a write that waits for ever has yet to leave its event. A read is dropped only
if it finds the buffer of its caller full. -/
theorem events_accounted (hbuild : s.build = .ok fresh)
    (hscripts : ∀ l ∈ s.listener, l.Stocks Scope.keeping.Allows)
    (hops : Op.allWithin .keeping ops = true) :
    let last := (perform ops fresh).2
    let deeds := (perform ops fresh).1.flatMap Report.deeds
    last.metrics.hits + deeds.countP (·.does Call.keeps) + last.metrics.inserts +
        last.metrics.updates + last.metrics.removals =
      (last.drains.map (·.replayed)).sum + last.engine.buffers.pending +
        last.metrics.droppedReads + deeds.countP (·.does Call.stalls) ∧
      ((∀ d ∈ deeds, d.returned = true) → deeds.countP (·.does Call.stalls) = 0) ∧
      ∃ ms, Trace .keeping ms fresh last ∧ (ms.map (·.deed)).Perm deeds ∧
        last.metrics.droppedReads = ms.countP Moment.drops := by
  obtain ⟨_, rfl⟩ := Settings.eq_empty_of_build hbuild
  obtain ⟨ms, htrace, hperm⟩ := exists_trace (fun _ => rfl) hops hscripts
  have hfit : s.empty.engine.buffers.Fit := .ofLevel s.concurrency Settings.bufferRoom s.thread
  obtain ⟨-, hevents, hdropped⟩ := htrace.eventLedger rfl hfit
  have hempty : s.empty.counters = {} ∧ s.empty.replayed = 0 ∧
      s.empty.engine.buffers.pending = 0 := by
    refine ⟨rfl, rfl, ?_⟩
    rw [Buffers.pending_eq]
    simp [Settings.empty]
  have hcount : ∀ kind, ms.countP (·.deed.does kind) =
      ((perform ops s.empty).1.flatMap Report.deeds).countP (·.does kind) := by
    intro kind
    rw [← hperm.countP_eq, List.countP_map]
    rfl
  rw [hempty.1, hempty.2.1, hempty.2.2, hcount, hcount] at hevents
  rw [hempty.1] at hdropped
  refine ⟨?_, countP_stalls_of_returned, ms, htrace, hperm, ?_⟩
  · simp only [metrics, Counters.recorded, replayed] at hevents ⊢
    omega
  · simpa [metrics] using hdropped

def relapsing : Settings :=
  { capacity := 2
    listener := some { scripts := [("b", [[.call (.put "b" "again"), .call (.get "b")]])] } }

/-- Reads and writes on a free lock, under a foreign one, and in the gap of one another. Some of the
last events still wait at the end. -/
def bustle : List Op :=
  [.call (.put "a" "1"), .call (.putIfAbsent "a" "2"),
    .interrupted (.put "b" "3") [.call (.put "b" "4"), .call (.get "a")],
    .hold [.call (.get "a"), .call (.replaceIf "a" "1" "5"), .call (.get "z")],
    .contended [.call (.put "c" "6"), .call (.removeIf "c" "6")], .call (.put "d" "7"),
    .hold [.call (.put "e" "8"), .call (.putIfAbsent "e" "9"), .call (.get "e"), .call (.get "a")]]

theorem events_accounted_bustle :
    let last := (perform bustle relapsing.empty).2
    let deeds := (perform bustle relapsing.empty).1.flatMap Report.deeds
    (last.metrics.updates, last.drains.map (·.replayed), last.engine.buffers.pending) =
        (2, [1, 2, 2, 3, 1, 2, 1], 3) ∧
      last.metrics.hits + deeds.countP (·.does Call.keeps) + last.metrics.inserts +
          last.metrics.updates + last.metrics.removals =
        (last.drains.map (·.replayed)).sum + last.engine.buffers.pending +
          last.metrics.droppedReads := by
  have hscripts : ∀ l ∈ relapsing.listener, l.Stocks Scope.keeping.Allows := by
    rintro l ⟨⟩
    unfold Listener.Stocks Scope.Allows
    decide
  obtain ⟨hevents, hwaiting, -⟩ := events_accounted (s := relapsing) rfl hscripts
    (show Op.allWithin .keeping bustle = true from rfl)
  have hreturned :
      ((perform bustle relapsing.empty).1.flatMap Report.deeds).all (·.returned) = true := by cbv
  rw [hwaiting (List.all_eq_true.mp hreturned), Nat.add_zero] at hevents
  exact ⟨by cbv, hevents⟩

end Cache

end BoundedCache
