import BoundedCache.Proofs.Cache.Upkeep

namespace BoundedCache

open Cache

variable {s : Settings} {c c' : Cache}

/-- The replay of an engine leaves no event in an idle buffer. -/
theorem Engine.replay_awake {e : Engine} (h : e.buffers.Awake) : e.replay.2.buffers.Awake := by
  rw [replay_eq_of_awake e h]
  exact (Buffers.sound_emptied _).awake

namespace Cache

/-- Operations leave no event in an idle buffer if they find none there. -/
theorem Course.awake {courier : Courier}
    (hc : ∀ c : Cache, c.engine.buffers.Awake → (courier c).2.engine.buffers.Awake)
    (h : Course courier c c') (hb : c.engine.buffers.Awake) : c'.engine.buffers.Awake := by
  induction h with
  | refl => exact hb
  | trans _ _ first later => exact later (first hb)
  | change _ buffers => exact buffers ▸ hb
  | record record => exact hb.record record
  | count | recap | enqueue => exact hb
  | drained c =>
    rw [buffers_drained_of_awake hb]
    exact (Buffers.sound_emptied _).awake
  | cleared c =>
    rw [cleared_eq]
    exact (Engine.buffers_clear_eq c.engine).symm ▸ Engine.replay_awake hb
  | deliver c => exact hc c hb
  | underLock _ c ops => exact ops _ hb
  | @discard ops _ c hops =>
    rw [discard_eq]
    refine Buffered.drain_awake (W := Cache × Option (List Step)) (fun ev w hw => ?_) hb
    obtain ⟨c, ran⟩ := w
    cases ran with
    | none => exact hops c hw
    | some steps => exact hw

theorem Deliveries.awake {l l' : Listener (List Op)} {n : Nat} (h : Deliveries l c n l' c')
    (hb : c.engine.buffers.Awake) : c'.engine.buffers.Awake := by
  induction h with
  | done => exact hb
  | @next l l' c c' e rest n _ _ ih =>
    obtain ⟨mid, notice, hcourse, _, htell, _⟩ := tell_course l e (c.dequeue rest)
    have hmid : mid.engine.buffers.Awake := hcourse.awake (fun _ hb => hb) hb
    exact ih (htell ▸ hmid)

theorem awake_deliver (c : Cache) (hb : c.engine.buffers.Awake) :
    c.deliver.2.engine.buffers.Awake := by
  rcases deliver_cases c with ⟨_, hd⟩ | ⟨l, n, l', c', hl, hdel, hd⟩
  · rw [hd]
    exact hb
  · rw [hd]
    exact hdel.awake hb

end Cache

inductive Stage where
  | top
  | reaction

namespace Stage

def courier : Stage → Courier
  | .top => deliver
  | .reaction => Courier.busy

variable {stage : Stage}

theorem moving (stage : Stage) : stage.courier.Moving := by
  cases stage with
  | top => exact moving_deliver
  | reaction => exact Courier.moving_busy

theorem frugal (stage : Stage) : stage.courier.Frugal := by
  cases stage with
  | top => exact frugal_deliver
  | reaction => exact Courier.frugal_busy

theorem maintains (stage : Stage) (c : Cache) : c.Maintains (stage.courier c).2 := by
  cases stage with
  | top => exact maintains_deliver c
  | reaction => exact .of_eq rfl rfl

theorem awake (stage : Stage) (c : Cache) (hb : c.engine.buffers.Awake) :
    (stage.courier c).2.engine.buffers.Awake := by
  cases stage with
  | top => exact awake_deliver c hb
  | reaction => exact hb

end Stage

namespace Cache

/-- The states that an operation can find at a stage. What a call does up to some point is such a
course too, so the gap of a call and the drain before a delivery are among them. -/
inductive Arises (s : Settings) : Stage → Cache → Prop where
  | built {fresh : Cache} (build : s.build = .ok fresh) : Arises s .top fresh
  | runs {stage : Stage} {c c' : Cache} (before : Arises s stage c)
      (course : Course stage.courier c c') : Arises s stage c'
  | held {stage : Stage} {c : Cache} (before : Arises s stage c) :
      Arises s stage { c with lockHeld := true }
  | replays {stage : Stage} {c : Cache} {b : Buffers} (before : Arises s stage c)
      (turns : c.engine.buffers.Turns b) :
      Arises s stage { c with engine := { c.engine with buffers := b } }
  /-- The listener is told of an entry, and is away for that. -/
  | tells {stage : Stage} {c : Cache} {r : Relay (Listener (List Op)) (List Step)}
      (before : Arises s stage c) (away : r.listener = none) :
      Arises s .reaction { c with relay := r }

variable {stage : Stage}

/-- Operations that run one after the other lead from such a state to such a state. -/
theorem Arises.runAll (h : Arises s stage c) (ops : List Op) :
    Arises s stage (Op.runAll stage.courier ops c).2 :=
  h.runs (Op.runAll_course stage.moving ops c)

theorem arises_perform {fresh : Cache} (hbuild : s.build = .ok fresh) (ops : List Op) :
    Arises s .top (perform ops fresh).2 := by
  rw [(perform_eq ops fresh).2]
  exact (Arises.built hbuild).runAll ops

namespace Arises

theorem reachable (h : Arises s stage c) : Reachable s c := by
  induction h with
  | built build => exact ⟨_, build, .refl _⟩
  | @runs stage _ _ _ course ih => exact ih.moves (course.moves stage.moving)
  | held _ ih => exact ih.moves (.of_eq rfl rfl)
  | replays _ turns ih => exact ih.moves (.change (.rebuffer _ turns.emptied))
  | tells _ _ ih => exact ih.moves (.of_eq rfl rfl)

theorem awake (h : Arises s stage c) : c.engine.buffers.Awake := by
  induction h with
  | built build =>
    obtain ⟨_, rfl⟩ := Settings.eq_empty_of_build build
    exact (Buffers.sound_ofLevel _ _ _).awake
  | @runs stage _ _ _ course ih => exact course.awake stage.awake ih
  | held _ ih => exact ih
  | replays _ turns ih => exact ih.turns turns
  | tells _ _ ih => exact ih

/-- At the top level whoever listens is there. -/
theorem attended (h : Arises s .top c) : c.Attended := by
  generalize hstage : Stage.top = stage at h
  induction h with
  | built build =>
    obtain ⟨_, rfl⟩ := Settings.eq_empty_of_build build
    exact (atEase_empty s).attended
  | @runs stage _ _ _ course ih => exact (course.maintains stage.maintains).attended (ih hstage)
  | held _ ih => exact ⟨(ih hstage).listener, (ih hstage).queue⟩
  | replays _ _ ih => exact ⟨(ih hstage).listener, (ih hstage).queue⟩
  | tells => cases hstage

end Arises

/-- In every such state each buffer has the room it began with, and there is one at least. -/
theorem Reachable.room (h : Reachable s c) :
    c.engine.buffers.room = Settings.bufferRoom ∧ 0 < c.engine.buffers.count := by
  obtain ⟨fresh, hbuild, hc⟩ := h
  obtain ⟨_, rfl⟩ := Settings.eq_empty_of_build hbuild
  have hevolves := hc.evolves
  exact ⟨hevolves.room, hevolves.count ▸ Buffers.count_ofLevel_pos ..⟩

theorem Arises.emptiable (h : Arises s stage c) (hlock : c.lockHeld = false) : c.Emptiable where
  room := by
    rw [h.reachable.room.1]
    decide
  count := h.reachable.room.2
  awake := h.awake
  lock := hlock

/-- A drain at a stage leads to such a state, and gives the lock back. -/
theorem Arises.drain (h : Arises s stage c) : Arises s stage (c.drain stage.courier) :=
  h.runs (Course.drain c)

/-- A drain gives the lock back. -/
theorem lockHeld_drain (stage : Stage) (c : Cache) :
    (c.drain stage.courier).lockHeld = c.lockHeld :=
  Maintains.lock ((Course.drain c).maintains stage.maintains)

/-- While the lock is free a writer gets its event in. -/
theorem Arises.exists_recordWrite (h : Arises s stage c) (hlock : c.lockHeld = false)
    (event : Event) : ∃ c', c.recordWrite stage.courier event = some c' :=
  Cache.exists_recordWrite (I := fun c => Arises s stage c ∧ c.lockHeld = false)
    stage.frugal (fun _ h => h.1.emptiable h.2)
    (fun _ h => ⟨h.1.drain, (lockHeld_drain stage _).trans h.2⟩) ⟨h, hlock⟩ event

end Cache

end BoundedCache
