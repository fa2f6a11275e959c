import BoundedCache.Proofs.Cache.Performs
import BoundedCache.Proofs.Engine.Clear

namespace BoundedCache

namespace Cache

/-- The events in the buffers, and those in hand, cover every disagreement. -/
structure Covered (hand : List Event) (c : Cache) : Prop where
  accounted : c.engine.Accounted (hand ++ c.engine.buffers.events)
  sound : c.engine.buffers.Sound
  weighed : ∀ id held, c.engine.pool.held id = some held → c.weigher held.value = .ok held.weight

variable {c c' : Cache} {hand : List Event} {event : Event} {b : Buffers} {i : Nat} {call : Call}
  {answer : Answer Step} {id : NodeId} {last : Held}

namespace Covered

/-- Only engine and weigher matter. -/
theorem of_eq (h : c.Covered hand) (he : c'.engine = c.engine) (hw : c'.weigher = c.weigher) :
    c'.Covered hand :=
  ⟨he ▸ h.accounted, he ▸ h.sound, by rw [he, hw]; exact h.weighed⟩

/-- The write of a call leaves its event in hand. -/
theorem write (h : c.Covered hand) (hw : c.Writes call answer event c') :
    c'.Covered (event :: hand) := by
  cases hw with
  | @replace _ _ _ p _ _ hweigh hp =>
    refine ⟨h.accounted.replace hp, h.sound, fun id held hh => ?_⟩
    replace hh : p.held id = some held := hh
    rw [hp.held] at hh
    split at hh
    · cases hh
      exact hweigh
    · exact h.weighed id held hh
  | @insert key fresh s _ _ hweigh hs =>
    refine ⟨h.accounted.insert hs, h.sound, fun id held hh => ?_⟩
    replace hh : (c.engine.pool.add key fresh).held id = some held := hh
    rw [Pool.held_add] at hh
    split at hh
    · cases hh
      exact hweigh
    · exact h.weighed id held hh
  | @retire _ _ p s _ _ hp hs =>
    refine ⟨h.accounted.retire hp hs, h.sound, fun id held hh => ?_⟩
    replace hh : p.held id = some held := hh
    rw [hp.held] at hh
    split at hh
    · cases hh
    · exact h.weighed id held hh

/-- The event in hand goes into a buffer. -/
theorem record (h : c.Covered (event :: hand)) (hb : c.engine.buffers.record i event = .ok b) :
    Covered hand { c with engine := { c.engine with buffers := b } } := by
  refine ⟨?_, Buffers.sound_record h.sound hb, h.weighed⟩
  have hsame : Engine.Accounted (event :: hand ++ c.engine.buffers.events)
      { c.engine with buffers := b } := h.accounted.of_eq rfl rfl rfl
  refine hsame.congr fun ev => ?_
  simp only [List.mem_append, List.mem_cons, Buffers.mem_events_record hb]
  exact or_left_comm.trans or_assoc.symm

/-- An event about a live node, other than its removal, does no harm. -/
theorem recordExtra (h : c.Covered hand) (hl : c.engine.pool.held event.node = some last)
    (hr : event.kind ≠ .remove) (hb : c.engine.buffers.record i event = .ok b) :
    Covered hand { c with engine := { c.engine with buffers := b } } := by
  have hextra : c.Covered (event :: hand) :=
    ⟨h.accounted.cons (Pool.lt_next_of_held hl) (fun he => absurd he hr), h.sound, h.weighed⟩
  exact hextra.record hb

theorem recordRead (h : c.Covered hand) (hl : c.engine.pool.held id = some last) :
    (c.recordRead id).Covered hand := by
  unfold Cache.recordRead
  cases hb : c.engine.buffers.recordOwn ⟨.read, id⟩ with
  | ok b => exact h.recordExtra hl (by simp) hb
  | error back => exact h.of_eq rfl rfl

/-- The order of the events does not matter. -/
theorem swap (h : c.Covered hand) :
    c.engine.Accounted (c.engine.buffers.events ++ hand) :=
  h.accounted.congr fun ev => by rw [List.mem_append, List.mem_append, or_comm]

/-- A replay changes no value. -/
theorem weighed_applyAll (h : c.Covered hand) {w : Weigher} (hw : c.weigher = w)
    (events : List Event) (id : NodeId) (held : Held)
    (hh : (c.engine.applyAll events).pool.held id = some held) :
    w held.value = .ok held.weight := by
  rw [Engine.pool_applyAll] at hh
  exact hw ▸ h.weighed id held hh

/-- A drain settles what the buffers covered, and evicts down to the capacity. -/
theorem drained (h : c.Covered hand) :
    c.drained.Covered hand ∧ c.drained.published ≤ c.capacity := by
  have hbuffers := buffers_drained h.sound
  obtain ⟨hevict, hsize⟩ := (h.swap.replay h.sound).evict c.capacity
  refine ⟨⟨?_, ?_, fun id held hh => ?_⟩, ?_⟩
  · rw [hbuffers, Buffers.events_emptied, List.append_nil, engine_drained]
    exact hevict
  · rw [hbuffers]
    exact Buffers.sound_emptied _
  · rw [weigher_drained]
    rw [engine_drained] at hh
    have hheld : c.engine.replay.2.pool.held id = some held := Engine.held_of_evictUpTo _ _ _ hh
    rw [Engine.replay_eq _ h.sound] at hheld
    exact h.weighed_applyAll rfl _ id held hheld
  · rw [published_drained, engine_drained]
    exact hsize

/-- A clearing leaves nothing to cover. -/
theorem cleared (h : c.Covered hand) :
    c.cleared.2.Covered hand ∧ c.cleared.2.published = 0 := by
  obtain ⟨hvoid, hbuffers⟩ := h.swap.clear h.sound
  have hgrows := (Engine.Evolves.of_changes c.engine.changes_clear).pool
  rw [cleared_eq]
  generalize c.engine.clear.2 = e at hvoid hbuffers hgrows ⊢
  refine ⟨⟨?_, ?_, fun id held hh => ?_⟩, hvoid.linked.weightedSize⟩
  · rw [hbuffers, Buffers.events_emptied, List.append_nil]
    refine hvoid.accounted fun ev hev => Nat.lt_of_lt_of_le ?_ hgrows.next_le
    exact h.accounted.named ev (List.mem_append_left _ hev)
  · rw [hbuffers]
    exact Buffers.sound_emptied _
  · exact absurd (hh.symm.trans (hvoid.retired id)) (by simp)

end Covered

end Cache

/-- An empty cache has nothing to cover. -/
theorem Settings.covered_empty (s : Settings) : s.empty.Covered [] where
  accounted := by
    simp only [Settings.empty, Buffers.events_ofLevel]
    exact .empty ..
  sound := Buffers.sound_ofLevel _ _ _
  weighed id held hh := by simp [Settings.empty, Pool.held, Pool.node?] at hh

end BoundedCache
