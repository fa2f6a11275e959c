import Mathlib
import BoundedCache.Proofs.Cache.Acts
import BoundedCache.Proofs.Cache.Arises

namespace BoundedCache

namespace Cache

variable {s : Settings} {c c' next : Cache} {key : Key} {f : Counters → Counters}
  {after : Option Value} {event : Option Event} {ev : Event} {b : Buffers} {courier : Courier}
  {call : Call} {effect : MapEffect}

/-- What the lock guards is as it was, with the relay and the other buffers. -/
structure Respects (c c' : Cache) : Prop where
  deque : c'.engine.deque = c.engine.deque
  published : c'.published = c.published
  capacity : c'.capacity = c.capacity
  relay : c'.relay = c.relay
  drains : c'.drains = c.drains
  lock : c'.lockHeld = c.lockHeld
  weigher : c'.weigher = c.weigher
  layout : c'.engine.buffers.emptied = c.engine.buffers.emptied
  others : ∀ i ≠ c.engine.buffers.own, c'.engine.buffers.buffer i = c.engine.buffers.buffer i

namespace Respects

theorem acts (h : c.Acts key f after event next) : c.Respects next := by
  rw [h.rest]
  exact ⟨rfl, rfl, rfl, rfl, rfl, rfl, rfl, rfl, fun _ _ => rfl⟩

theorem count (h : c.Respects c') (g : Counters → Counters) : c.Respects (c'.count g) :=
  ⟨h.deque, h.published, h.capacity, h.relay, h.drains, h.lock, h.weigher, h.layout, h.others⟩

theorem record (h : c.Respects c') (hb : c'.engine.buffers.recordOwn ev = .ok b) :
    c.Respects { c' with engine := { c'.engine with buffers := b } } :=
  ⟨h.deque, h.published, h.capacity, h.relay, h.drains, h.lock, h.weigher,
    (Buffers.emptied_record hb).trans h.layout, fun i hi => by
      rw [Buffers.buffer_record hb, Buffers.own_eq_of_emptied h.layout, if_neg hi]
      exact h.others i hi⟩

end Respects

/-- What a call about a key leaves in the buffer of the caller and in the counters: the event, if it
has one, behind what waits already. Only the event of a read is dropped, if there is no room for it,
and then the drop is counted. -/
inductive Notes (c : Cache) (key : Key) (f : Counters → Counters) :
    Option EventKind → Cache → Prop where
  | silent {c' : Cache} (buffers : c'.engine.buffers = c.engine.buffers)
      (counters : c'.counters = f c.counters) : Notes c key f none c'
  | appended {kind : EventKind} {id : NodeId} {c' : Cache}
      (about : (if kind = .remove then c else c').engine.store.get? key = some id)
      (queue : c'.engine.buffers.queue c.engine.buffers.own =
        c.engine.buffers.queue c.engine.buffers.own ++ [⟨kind, id⟩])
      (counters : c'.counters = f c.counters) : Notes c key f (some kind) c'
  | dropped {c' : Cache} (full : ¬ c.HasRoom) (buffers : c'.engine.buffers = c.engine.buffers)
      (counters : c'.counters =
        { f c.counters with droppedReads := (f c.counters).droppedReads + 1 }) :
      Notes c key f (some .read) c'

/-- A call appends its event as soon as there is room. -/
theorem Notes.record (h : c.Acts key f after (some ev) next)
    (hb : next.engine.buffers.recordOwn ev = .ok b) :
    c.Notes key f (some ev.kind) { next with engine := { next.engine with buffers := b } } := by
  have habout := h.about rfl
  have hbuffers : next.engine.buffers = c.engine.buffers := by rw [h.rest]
  have hcounters : next.counters = f c.counters := by rw [h.rest]
  refine .appended (Eq.trans ?_ habout) ?_ hcounters
  · split <;> rfl
  · show b.queue c.engine.buffers.own = _
    rw [hbuffers] at hb
    rw [Buffers.queue_record hb, if_pos rfl]

/-- A writer that finds room while somebody else holds the lock does not drain. -/
theorem recordWrite_of_locked (hlock : c.lockHeld = true)
    (hb : c.engine.buffers.recordOwn ev = .ok b) :
    c.recordWrite courier ev = some { c with engine := { c.engine with buffers := b } } := by
  rw [recordWrite_of_ok hb, settled, tryDrain, if_pos hlock]
  exact congrArg some (ite_self _)

/-- How a call ends under the lock: with its event in the buffer of the caller, if it has one, or
with a read dropped. -/
theorem Acts.closing_of_locked (h : c.Acts key f after event next) (hlock : c.lockHeld = true)
    (hcount : 0 < c.engine.buffers.count)
    (hroom : ∀ ev, event = some ev → ev.kind ≠ .read → c.HasRoom) (answer : Answer Step) :
    ∃ c', next.closing courier answer event = (answer, c') ∧
      (∀ k, c'.getQuietly k = next.getQuietly k) ∧ c.Respects c' ∧
      c.Notes key f (event.map (·.kind)) c' := by
  have hbuffers : next.engine.buffers = c.engine.buffers := by rw [h.rest]
  have hcounters : next.counters = f c.counters := by rw [h.rest]
  have hrespects : c.Respects next := .acts h
  have hlock' : next.lockHeld = true := hrespects.lock.trans hlock
  have hrecord (ev : Event) (hfree : c.HasRoom) :
      ∃ b, next.engine.buffers.recordOwn ev = .ok b := by
    rw [hbuffers]
    exact Buffers.exists_recordOwn hcount hfree ev
  cases event with
  | none => exact ⟨next, rfl, fun _ => rfl, hrespects, .silent hbuffers hcounters⟩
  | some ev =>
    unfold closing
    dsimp only
    by_cases hread : ev.kind = .read
    · have hev : (⟨.read, ev.node⟩ : Event) = ev := by rw [← hread]
      rw [if_pos hread, recordRead, hev]
      cases hb : next.engine.buffers.recordOwn ev with
      | ok b => exact ⟨_, rfl, fun _ => rfl, hrespects.record hb, .record h hb⟩
      | error back =>
        have hfull : ¬ c.HasRoom := fun hfree => by
          obtain ⟨b, hok⟩ := hrecord ev hfree
          cases hok.symm.trans hb
        refine ⟨_, rfl, fun _ => rfl, hrespects.count _, ?_⟩
        rw [Option.map_some, hread]
        exact .dropped hfull hbuffers (hcounters ▸ rfl)
    · obtain ⟨b, hb⟩ := hrecord ev (hroom ev rfl hread)
      rw [if_neg hread, recordWrite_of_locked hlock' hb]
      exact ⟨_, rfl, fun _ => rfl, hrespects.record hb, .record h hb⟩

/-- While somebody else holds the lock, a call of one key does to the live values what it does to a
plain map without a bound, and nothing to what the lock guards. It leaves its event in the buffer of
the caller, where a write needs room; a read that finds none is dropped and counted. The only other
outcome is that the weigher refuses the value that the call brings along, and then the call does
nothing. -/
theorem call_under_lock (h : Reachable s c) (hlock : c.lockHeld = true) (courier : Courier)
    (heffect : call.onMap (c.getQuietly ·) = some effect)
    (hroom : ∀ kind, effect.event = some kind → kind ≠ .read → c.HasRoom) :
    c.Refuses call (call.run courier c) ∨
      let (answer, c') := call.run courier c
      answer = effect.answer ∧
        (∀ key, c'.getQuietly key = if key = effect.key then effect.after else c.getQuietly key) ∧
        c.Respects c' ∧ c.Notes effect.key (call.tally effect.answer) effect.event c' := by
  refine (call.run_comes courier c heffect).imp_right fun hcomes => ?_
  obtain ⟨event, next, hacts, hkind, hrun⟩ := hcomes
  have hfree (ev : Event) (hev : event = some ev) (hwrite : ev.kind ≠ .read) : c.HasRoom :=
    hroom ev.kind (by rw [← hkind, hev]; rfl) hwrite
  obtain ⟨c', hclosing, hvalues, hrespects, hnotes⟩ :=
    hacts.closing_of_locked hlock h.room.2 hfree effect.answer
  rw [hrun, hclosing, ← hkind]
  exact ⟨rfl, fun k => (hvalues k).trans (hacts.getQuietly h.sound k), hrespects, hnotes⟩

/-- Two entries, the second of which is about to be removed: its node is retired, still mapped and
still linked, and the event of a read of it waits. -/
def inTransit : List Op :=
  [.call (.put "a" "1"), .call (.put "b" "2"), .call (.get "b"), .probe (.retire "b")]

theorem call_under_lock_inTransit :
    let c := { (perform inTransit { capacity := 2 : Settings }.empty).2 with lockHeld := true }
    let call : Call := .putIfAbsent "b" "3"
    let last := (call.run Cache.deliver c).2
    c.getQuietly "b" = none ∧ c.engine.store.get? "b" = some 1 ∧
      (call.run Cache.deliver c).1 = .value none ∧ last.getQuietly "b" = some "3" ∧
      last.getQuietly "a" = some "1" ∧ c.Respects last ∧
      c.Notes "b" (fun n => { n with inserts := n.inserts + 1 }) (some .add) last := by
  intro c call last
  have hreached : Reachable { capacity := 2 } c :=
    (reachable_perform rfl inTransit).moves (.of_eq rfl rfl)
  have hlock : c.lockHeld = true := rfl
  have hweigher : c.weigher = Weigher.unit := by cbv
  have hretired : c.getQuietly "b" = none := by cbv
  have hmapped : c.engine.store.get? "b" = some 1 := by cbv
  have hother : c.getQuietly "a" = some "1" := by cbv
  have hroom : c.HasRoom := by
    show List.length _ < _
    cbv
  clear_value c
  have heffect : call.onMap (c.getQuietly ·) = some ⟨"b", .value none, some "3", some .add⟩ := by
    simp only [call, Call.onMap, hretired]
    rfl
  rcases call_under_lock hreached hlock Cache.deliver heffect fun _ _ _ => hroom with
    ⟨value, message, _, hrefused, _⟩ | ⟨hanswer, hvalues, hrespects, hnotes⟩
  · rw [hweigher] at hrefused
    cases hrefused
  · exact ⟨hretired, hmapped, hanswer, hvalues "b", (hvalues "a").trans hother, hrespects, hnotes⟩

end Cache

end BoundedCache
