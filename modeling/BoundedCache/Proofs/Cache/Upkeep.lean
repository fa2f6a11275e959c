import BoundedCache.Proofs.Buffers.Claims
import BoundedCache.Proofs.Cache.Moves
import BoundedCache.Proofs.Cache.AtEase
import BoundedCache.Proofs.Cache.Rounds
import BoundedCache.Proofs.Engine.Clear

namespace BoundedCache

namespace Cache

variable {c c' c'' : Cache} {courier : Courier} {claimed : List Nat}

/-- A relation that looks at lock and relay only holds across operations once it holds across an
entry being queued, a delivery, and the lock being held by somebody else for a while. -/
theorem Course.relay_rel {R : Cache → Cache → Prop}
    (trans : ∀ {c c' c'' : Cache}, R c c' → R c' c'' → R c c'')
    (same : ∀ {c c' : Cache}, c'.relay = c.relay → c'.lockHeld = c.lockHeld → R c c')
    (enqueue : ∀ (c : Cache) (e : Entry), R c { c with relay := c.relay.enqueue e })
    (deliver : ∀ c : Cache, R c (courier c).2)
    (lock : ∀ {c c' : Cache}, R { c with lockHeld := true } c' →
      R c { c' with lockHeld := c.lockHeld })
    (h : Course courier c c') : R c c' := by
  have henqueueAll (es : List Entry) (c : Cache) :
      R c { c with relay := c.relay.enqueueAll es } := by
    induction es generalizing c with
    | nil => exact same rfl rfl
    | cons e es ih => exact trans (enqueue c e) (ih _)
  induction h with
  | refl c => exact same rfl rfl
  | trans _ _ first later => exact trans first later
  | change | record | count | recap => exact same rfl rfl
  | enqueue c e => exact enqueue c e
  | drained c => exact trans (henqueueAll _ c) (same (relay_drained c) (lockHeld_drained c))
  | cleared c => exact same (by rw [cleared_eq]) (by rw [cleared_eq])
  | deliver c => exact deliver c
  | underLock _ c ops => exact lock (ops _)
  | @discard ops _ c hops =>
    refine Buffered.drain_rel (W := Cache × Option (List Step)) (R := fun w w' => R w.1 w'.1)
      (fun w => same rfl rfl) trans (fun w b _ => same rfl rfl) (fun ev w => ?_) (c, none)
    obtain ⟨c, ran⟩ := w
    cases ran with
    | none => exact hops c
    | some steps => exact same rfl rfl

/-- What operations do not touch, or give back. -/
structure Maintains (c c' : Cache) : Prop where
  lock : c'.lockHeld = c.lockHeld
  enabled : c'.relay.enabled = c.relay.enabled
  listener : c'.relay.listener.isSome = c.relay.listener.isSome
  unheard : c.relay.enabled = false → c.relay.queue = [] → c'.relay.queue = []

namespace Maintains

theorem trans (h : c.Maintains c') (h' : c'.Maintains c'') : c.Maintains c'' where
  lock := h'.lock.trans h.lock
  enabled := h'.enabled.trans h.enabled
  listener := h'.listener.trans h.listener
  unheard he hq := h'.unheard (h.enabled.trans he) (h.unheard he hq)

theorem of_eq (hr : c'.relay = c.relay) (hl : c'.lockHeld = c.lockHeld) : c.Maintains c' :=
  ⟨hl, by rw [hr], by rw [hr], fun _ hq => by rw [hr, hq]⟩

theorem enqueue (c : Cache) (e : Entry) : c.Maintains { c with relay := c.relay.enqueue e } := by
  cases he : c.relay.enabled with
  | true =>
    rw [Relay.enqueue_of_enabled he]
    exact ⟨rfl, rfl, rfl, fun hd => absurd (he.symm.trans hd) (by simp)⟩
  | false =>
    rw [Relay.enqueue_of_disabled he]
    exact of_eq rfl rfl

theorem attended (h : c.Maintains c') (hc : c.Attended) : c'.Attended :=
  ⟨by rw [h.enabled, h.listener, hc.listener],
    fun he => h.unheard (h.enabled ▸ he) (hc.queue (h.enabled ▸ he))⟩

end Maintains

theorem Course.maintains (hc : ∀ c : Cache, c.Maintains (courier c).2) (h : Course courier c c') :
    c.Maintains c' :=
  h.relay_rel .trans .of_eq .enqueue hc fun h => ⟨rfl, h.enabled, h.listener, h.unheard⟩

/-- While a delivery is in progress operations can only queue, behind what is queued already. -/
theorem Course.undelivered (h : Course Courier.busy c c') :
    c'.relay.notices = c.relay.notices ∧ c.relay.queue <+: c'.relay.queue := by
  refine h.relay_rel (R := fun c c' => c'.relay.notices = c.relay.notices ∧
      c.relay.queue <+: c'.relay.queue)
    (fun h h' => ⟨h'.1.trans h.1, h.2.trans h'.2⟩) (fun hr _ => by simp [hr]) (fun c e => ?_)
    (fun c => ⟨rfl, List.prefix_refl _⟩) (fun h => h)
  cases he : c.relay.enabled with
  | true =>
    rw [Relay.enqueue_of_enabled he]
    exact ⟨rfl, List.prefix_append _ _⟩
  | false =>
    rw [Relay.enqueue_of_disabled he]
    exact ⟨rfl, List.prefix_refl _⟩

/-- Operations leave the buffers as sound as they find them. -/
theorem Course.soundBut
    (hc : ∀ (c : Cache) claimed, c.engine.buffers.SoundBut claimed →
      (courier c).2.engine.buffers.SoundBut claimed)
    (h : Course courier c c') (hs : c.engine.buffers.SoundBut claimed) :
    c'.engine.buffers.SoundBut claimed := by
  induction h generalizing claimed with
  | refl => exact hs
  | trans _ _ first later => exact later (first hs)
  | change _ buffers => exact buffers ▸ hs
  | record record => exact hs.record record
  | count | recap | enqueue => exact hs
  | drained c =>
    rw [engine_drained]
    exact (Engine.buffers_evictUpTo ..).symm ▸ Engine.replay_soundBut hs
  | cleared c =>
    rw [cleared_eq]
    exact (Engine.buffers_clear_eq c.engine).symm ▸ Engine.replay_soundBut hs
  | deliver c => exact hc c claimed hs
  | underLock _ c ops => exact ops _ hs
  | @discard ops _ c hops =>
    rw [discard_eq]
    refine Buffered.drain_soundBut (W := Cache × Option (List Step)) (fun claimed ev w hw => ?_) hs
    obtain ⟨c, ran⟩ := w
    cases ran with
    | none => exact hops c hw
    | some steps => exact hw

end Cache

/-- Operations that report nothing were none. -/
theorem Op.runAll_of_steps_nil {courier : Courier} {ops : List Op} {c : Cache}
    (h : (Op.runAll courier ops c).1 = []) : (Op.runAll courier ops c).2 = c := by
  cases ops with
  | nil => rfl
  | cons op rest => simp [Op.runAll] at h

def Notice.silent (n : Notice (List Step)) : Prop := n.reaction.getD [] = []

namespace Cache

variable {c c' : Cache} {claimed : List Nat} {l l' : Listener (List Op)} {n : Nat} {e : Entry}
  {rest : List Entry}

/-- Calling the listener is a run of operations during which nothing is delivered, and a line in
the log. -/
theorem tell_course (l : Listener (List Op)) (e : Entry) (c : Cache) :
    ∃ mid notice, Course Courier.busy c mid ∧ notice.entry = e ∧
      c.tell l e = { mid with relay := mid.relay.log notice } ∧ (notice.silent → mid = c) := by
  cases hs : (l.respond e).1.script with
  | none => exact ⟨c, _, .refl c, rfl, tell_of_silent hs c, fun _ => rfl⟩
  | some script =>
    exact ⟨_, _, Op.runAll_course Courier.moving_busy script c, rfl, tell_of_script hs c,
      fun hnone => Op.runAll_of_steps_nil hnone⟩

namespace Deliveries

theorem maintains (h : Deliveries l c n l' c') : c.Maintains c' := by
  induction h with
  | done => exact .of_eq rfl rfl
  | @next l l' c c' e rest n queue _ ih =>
    refine Maintains.trans ?_ ih
    obtain ⟨mid, notice, hcourse, _, htell, _⟩ := tell_course l e (c.dequeue rest)
    have hmid := hcourse.maintains fun c => .of_eq rfl rfl
    rw [htell]
    exact ⟨hmid.lock, hmid.enabled, hmid.listener,
      fun _ hnil => absurd (hnil.symm.trans queue) (by simp)⟩

theorem soundBut (h : Deliveries l c n l' c') (hs : c.engine.buffers.SoundBut claimed) :
    c'.engine.buffers.SoundBut claimed := by
  induction h with
  | done => exact hs
  | @next l l' c c' e rest n _ _ ih =>
    obtain ⟨mid, notice, hcourse, _, htell, _⟩ := tell_course l e (c.dequeue rest)
    have hmid : mid.engine.buffers.SoundBut claimed := hcourse.soundBut (fun _ _ hs => hs) hs
    exact ih (htell ▸ hmid)

/-- What was queued is delivered first, and in that order. -/
theorem notices (h : Deliveries l c n l' c') :
    ∃ new, c'.relay.notices = c.relay.notices ++ new ∧ c.relay.queue <+: new.map (·.entry) := by
  induction h with
  | done queue => exact ⟨[], (List.append_nil _).symm, by simp [queue]⟩
  | @next l l' c c' e rest n queue _ ih =>
    obtain ⟨mid, notice, hcourse, rfl, htell, _⟩ := tell_course l e (c.dequeue rest)
    obtain ⟨hnotices, hqueue⟩ := hcourse.undelivered
    obtain ⟨new, hnew, hlater⟩ := ih
    rw [htell] at hnew hlater
    refine ⟨notice :: new, ?_, ?_⟩
    · rw [hnew]
      simp [Relay.log, hnotices, dequeue]
    · rw [queue, List.map_cons]
      exact (List.cons_prefix_cons).mpr ⟨rfl, hqueue.trans hlater⟩

/-- A delivery in which the listener does nothing changes the relay only, and delivers only what was
queued. -/
theorem silent (h : Deliveries l c n l' c')
    (hsilent : ∀ notice ∈ c'.relay.notices.drop c.relay.notices.length, notice.silent) :
    ∃ r, c' = { c with relay := r } ∧ r.notices.map (·.entry) = c.told ++ c.relay.queue := by
  induction h with
  | @done l c queue => exact ⟨c.relay, rfl, by rw [queue, List.append_nil]; rfl⟩
  | @next l l' c c' e rest n queue later ih =>
    obtain ⟨mid, notice, hcourse, rfl, htell, hidle⟩ := tell_course l e (c.dequeue rest)
    obtain ⟨new, hnew, _⟩ := later.notices
    rw [htell] at hnew ih
    have hnotices : c'.relay.notices = c.relay.notices ++ (notice :: new) := by
      rw [hnew]
      simp [Relay.log, hcourse.undelivered.1, dequeue]
    rw [hnotices, List.drop_left] at hsilent
    obtain ⟨hnotice, hrest⟩ := List.forall_mem_cons.mp hsilent
    obtain rfl := hidle hnotice
    obtain ⟨r, rfl, hr⟩ := ih (by rw [hnew]; simpa using hrest)
    refine ⟨r, rfl, hr.trans ?_⟩
    simp [told, Relay.log, dequeue, queue]

end Deliveries

theorem maintains_deliver (c : Cache) : c.Maintains c.deliver.2 := by
  rcases deliver_cases c with ⟨_, hd⟩ | ⟨l, n, l', c', hl, hdel, hd⟩
  · rw [hd]
    exact .of_eq rfl rfl
  · have hrun := hdel.maintains
    rw [hd]
    exact ⟨hrun.lock, hrun.enabled, by rw [hl]; rfl, fun _ _ => hdel.queue⟩

theorem soundBut_deliver (c : Cache) (claimed : List Nat)
    (hs : c.engine.buffers.SoundBut claimed) : c.deliver.2.engine.buffers.SoundBut claimed := by
  rcases deliver_cases c with ⟨_, hd⟩ | ⟨l, n, l', c', hl, hdel, hd⟩
  · rw [hd]
    exact hs
  · rw [hd]
    exact hdel.soundBut hs

/-- With the listener there, a delivery tells first of all that is queued. -/
theorem Attended.told_deliver (h : c.Attended) :
    c.told ++ c.relay.queue <+: c.deliver.2.told ∧ c.deliver.2.relay.queue = [] := by
  rcases deliver_cases c with ⟨hl, hd⟩ | ⟨l, n, l', c', hl, hdel, hd⟩
  · have hqueue : c.relay.queue = [] := h.queue (by rw [h.listener, hl]; rfl)
    rw [hd]
    exact ⟨by simp [hqueue], hqueue⟩
  · obtain ⟨new, hnew, hlater⟩ := hdel.notices
    rw [hd]
    refine ⟨?_, hdel.queue⟩
    have htold : c'.told = c.told ++ new.map (·.entry) := by rw [told, hnew, List.map_append]; rfl
    exact htold ▸ (List.prefix_append_right_inj _).mpr hlater

/-- A delivery in which the listener does nothing changes the relay only, and delivers only what was
queued. -/
theorem Attended.deliver_silent (h : c.Attended)
    (hsilent : ∀ notice ∈ c.deliver.2.relay.notices.drop c.relay.notices.length, notice.silent) :
    ∃ r, c.deliver.2 = { c with relay := r } ∧
      r.notices.map (·.entry) = c.told ++ c.relay.queue := by
  rcases deliver_cases c with ⟨hl, hd⟩ | ⟨l, n, l', c', hl, hdel, hd⟩
  · have hqueue : c.relay.queue = [] := h.queue (by rw [h.listener, hl]; rfl)
    exact ⟨c.relay, by rw [hd], by rw [hqueue, List.append_nil]; rfl⟩
  · rw [hd] at hsilent ⊢
    obtain ⟨r, rfl, hr⟩ := hdel.silent hsilent
    exact ⟨{ r with listener := some l' }, rfl, hr⟩

/-- Between two operations of the top level, whatever they are, the lock is free, whoever listens is
there, and the status of each buffer says whether it holds events. -/
theorem upkeep_perform {s : Settings} {fresh : Cache} (hbuild : s.build = .ok fresh)
    (ops : List Op) :
    (perform ops fresh).2.lockHeld = false ∧ (perform ops fresh).2.Attended ∧
      (perform ops fresh).2.engine.buffers.Sound := by
  obtain ⟨_, rfl⟩ := Settings.eq_empty_of_build hbuild
  rw [(perform_eq ops s.empty).2]
  have hcourse := Op.runAll_course moving_deliver ops s.empty
  have hmaintains := hcourse.maintains maintains_deliver
  have hsound : s.empty.engine.buffers.SoundBut [] :=
    Buffers.soundBut_nil.mpr (Buffers.sound_ofLevel _ _ _)
  exact ⟨hmaintains.lock, hmaintains.attended (atEase_empty s).attended,
    Buffers.soundBut_nil.mp (hcourse.soundBut soundBut_deliver hsound)⟩

end Cache

end BoundedCache
