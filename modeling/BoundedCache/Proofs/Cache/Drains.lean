import BoundedCache.Proofs.Cache.Evolves

namespace BoundedCache

def Buffers.Lone (b : Buffers) : Prop := ∀ i, i ≠ b.own → b.queue i = []

theorem Buffers.Lone.events_eq {b : Buffers} (h : b.Lone) (hc : 0 < b.count) :
    b.events = b.queue b.own := by
  obtain ⟨done, buffer, todo, hb, hown⟩ := exists_middle (own_lt hc)
  have hqueue (i : Nat) (hi : i ≠ done.length) :
      ((done ++ buffer :: todo)[i]?.getD {}).queue = [] := by
    have hempty := h i (hown ▸ hi)
    rwa [hb] at hempty
  have hdone : done.flatMap (·.queue) = [] := by
    refine List.flatMap_eq_nil_iff.mpr fun other hm => ?_
    obtain ⟨i, hi, rfl⟩ := List.mem_iff_getElem.mp hm
    have hempty := hqueue i (Nat.ne_of_lt hi)
    rwa [List.getElem?_append_left hi, List.getElem?_eq_getElem hi] at hempty
  have htodo : todo.flatMap (·.queue) = [] := by
    refine List.flatMap_eq_nil_iff.mpr fun other hm => ?_
    obtain ⟨i, hi, rfl⟩ := List.mem_iff_getElem.mp hm
    have hempty := hqueue (done.length + (i + 1)) (by omega)
    rwa [List.getElem?_append_right (Nat.le_add_right ..), Nat.add_sub_cancel_left,
      List.getElem?_cons_succ, List.getElem?_eq_getElem hi] at hempty
  rw [← hown, hb, events, List.flatMap_append, List.flatMap_cons, hdone, htodo, queue,
    buffer_middle, List.nil_append, List.append_nil]

theorem Buffers.lone_ofLevel (level room thread : Nat) : (ofLevel level room thread).Lone := by
  intro i _
  simp only [ofLevel, queue, buffer, List.getElem?_replicate]
  split <;> rfl

theorem Buffers.Lone.emptied (b : Buffers) : b.emptied.Lone := fun i _ => queue_emptied b i

/-- What is recorded in that buffer waits behind everything else. -/
theorem Buffers.Lone.record {b b' : Buffers} {event : Event} (h : b.Lone)
    (hb : b.recordOwn event = .ok b') : b'.Lone ∧ b'.events = b.events ++ [event] := by
  have hsame := emptied_record hb
  have hown : b'.own = b.own := own_eq_of_emptied hsame
  have hc : 0 < b.count := Nat.zero_lt_of_lt (record_eq_ok hb).1
  have hlone : b'.Lone := by
    intro i hi
    rw [hown] at hi
    rw [queue_record hb, if_neg hi, h i hi]
  refine ⟨hlone, ?_⟩
  rw [hlone.events_eq (count_eq_of_emptied hsame ▸ hc), h.events_eq hc, hown, queue_record hb,
    if_pos rfl]

/-- A courier that leaves the buffers alone, unless it uses up a script. -/
def Courier.Frugal (courier : Courier) : Prop :=
  ∀ c : Cache, (courier c).2.scriptsLeft < c.scriptsLeft ∨
    (courier c).2.scriptsLeft = c.scriptsLeft ∧
      (courier c).2.engine.buffers = c.engine.buffers

theorem Courier.frugal_busy : Courier.busy.Frugal := fun _ => Or.inr ⟨rfl, rfl⟩

namespace Cache

variable {c c' : Cache} {b : Buffers} {courier : Courier} {event : Event} {n : Nat}
  {P : List Op → Prop} {I : Cache → Prop}

@[simp] theorem engine_drained (c : Cache) : c.drained.engine = (c.engine.run c.capacity).2 := by
  unfold drained
  dsimp only
  split <;> rfl

@[simp] theorem relay_drained (c : Cache) :
    c.drained.relay = c.relay.enqueueAll (c.engine.run c.capacity).1.victims := by
  unfold drained
  dsimp only
  split <;> rfl

@[simp] theorem published_drained (c : Cache) :
    c.drained.published = c.drained.engine.deque.weightedSize := by
  unfold drained
  dsimp only
  split <;> rfl

@[simp] theorem capacity_drained (c : Cache) : c.drained.capacity = c.capacity := by
  unfold drained
  dsimp only
  split <;> rfl

@[simp] theorem lockHeld_drained (c : Cache) : c.drained.lockHeld = c.lockHeld := by
  unfold drained
  dsimp only
  split <;> rfl

@[simp] theorem weigher_drained (c : Cache) : c.drained.weigher = c.weigher := by
  unfold drained
  dsimp only
  split <;> rfl

/-- A drain counts itself and its victims. -/
theorem counters_drained (c : Cache) :
    c.drained.counters = { c.counters with
      drains := c.drained.counters.drains
      evictions := c.drained.counters.evictions } := by
  unfold drained
  dsimp only
  split <;> rfl

@[simp] theorem listener_drained (c : Cache) : c.drained.relay.listener = c.relay.listener := by
  rw [relay_drained, Relay.enqueueAll_eq]
  split <;> rfl

@[simp] theorem notices_drained (c : Cache) : c.drained.relay.notices = c.relay.notices := by
  rw [relay_drained, Relay.enqueueAll_eq]
  split <;> rfl

@[simp] theorem scriptsLeft_drained (c : Cache) : c.drained.scriptsLeft = c.scriptsLeft := by
  rw [scriptsLeft, listener_drained, scriptsLeft]

/-- A drain empties the buffers, those included that another drain has claimed. -/
theorem buffers_drained_of_awake (h : c.engine.buffers.Awake) :
    c.drained.engine.buffers = c.engine.buffers.emptied := by
  have hreplay : c.engine.replay.2.buffers = c.engine.buffers.emptied := by
    rw [Engine.replay_eq_of_awake _ h]
  rw [engine_drained]
  exact (Engine.buffers_evictUpTo ..).trans hreplay

theorem buffers_drained (h : c.engine.buffers.Sound) :
    c.drained.engine.buffers = c.engine.buffers.emptied :=
  buffers_drained_of_awake h.awake

inductive Drains (courier : Courier) : Cache → Cache → Prop where
  | none (c : Cache) : Drains courier c c
  | more {c c' : Cache} : c.lockHeld = false → Drains courier (c.drain courier) c' →
      Drains courier c c'

def settled (courier : Courier) (b : Buffers) (c : Cache) : Cache :=
  let c := { c with engine := { c.engine with buffers := b } }
  if b.drainRequired then c.tryDrain courier else c

theorem settled_cases (courier : Courier) (b : Buffers) (c : Cache) :
    c.settled courier b = { c with engine := { c.engine with buffers := b } } ∨
      c.settled courier b =
        Cache.drain courier { c with engine := { c.engine with buffers := b } } := by
  unfold settled tryDrain
  dsimp only
  split
  · split
    · exact Or.inl rfl
    · exact Or.inr rfl
  · exact Or.inl rfl

/-- A writer that gets its event in has drained until there was room. -/
theorem recordWithin_eq_some (h : recordWithin courier event n c = some c') :
    ∃ ready b, Drains courier c ready ∧ ready.engine.buffers.recordOwn event = .ok b ∧
      c' = ready.settled courier b := by
  induction n generalizing c with
  | zero => cases h
  | succ n ih =>
    unfold recordWithin at h
    cases hr : c.engine.buffers.recordOwn event with
    | ok b =>
      simp only [hr, Option.some.injEq] at h
      exact ⟨c, b, .none c, hr, h.symm⟩
    | error back =>
      cases Buffers.eq_of_record_eq_error hr
      simp only [hr] at h
      split at h
      · cases h
      · rename_i hlock
        obtain ⟨ready, b, hd, hb, rfl⟩ := ih h
        exact ⟨ready, b, .more (by simpa using hlock) hd, hb, rfl⟩

theorem Drains.keeps (hd : Drains courier c c')
    (hI : ∀ c : Cache, c.lockHeld = false → I c → I (c.drain courier)) (h : I c) : I c' := by
  induction hd with
  | none => exact h
  | more hlock _ ih => exact ih (hI _ hlock h)

theorem Drains.evolves (hd : Drains courier c c') (hc : courier.Steady P) (hp : c.Proper P) :
    c.Evolves c' := by
  induction hd with
  | none => exact .refl _
  | more _ _ ih =>
    have hdrain := Evolves.drain hc hp
    exact hdrain.trans (ih (hdrain.proper hp))

theorem Evolves.settled {i : Nat} (hb : c.engine.buffers.record i event = .ok b)
    (hc : courier.Steady P) (hp : c.Proper P) : c.Evolves (c.settled courier b) := by
  have hrebuffer := Evolves.rebuffer hb
  rcases settled_cases courier b c with he | he
  · rw [he]
    exact hrebuffer
  · rw [he]
    exact hrebuffer.trans (Evolves.drain hc (hrebuffer.proper hp))

theorem Evolves.recordWrite (h : c.recordWrite courier event = some c') (hc : courier.Steady P)
    (hp : c.Proper P) : c.Evolves c' := by
  obtain ⟨ready, b, hd, hb, rfl⟩ := recordWithin_eq_some h
  have hready := hd.evolves hc hp
  exact hready.trans (Evolves.settled hb hc (hready.proper hp))

/-- A relation that holds across one drain holds across a number of them. -/
theorem Drains.rel {R : Cache → Cache → Prop} (hrefl : ∀ c, R c c)
    (htrans : ∀ {c c' c'' : Cache}, c.Evolves c' → c'.Evolves c'' → R c c' → R c' c'' → R c c'')
    (hdrain : ∀ c : Cache, c.Proper P → R c (c.drain courier)) (hc : courier.Steady P)
    (hp : c.Proper P) (hd : Drains courier c c') : R c c' := by
  induction hd with
  | none => exact hrefl _
  | more _ hlater ih =>
    have hfirst := Evolves.drain hc hp
    have hp' := hfirst.proper hp
    exact htrans hfirst (hlater.evolves hc hp') (hdrain _ hp) (ih hp')

/-- A relation that does not look at the buffers and holds across drains holds across a writer
getting its event in. -/
theorem recordWrite_rel {R : Cache → Cache → Prop} (hrefl : ∀ c, R c c)
    (htrans : ∀ {c c' c'' : Cache}, c.Evolves c' → c'.Evolves c'' → R c c' → R c' c'' → R c c'')
    (hbuffers : ∀ (c : Cache) (b : Buffers),
      R c { c with engine := { c.engine with buffers := b } })
    (hdrain : ∀ c : Cache, c.Proper P → R c (c.drain courier)) (hc : courier.Steady P)
    (hp : c.Proper P) (h : c.recordWrite courier event = some c') : R c c' := by
  obtain ⟨ready, b, hd, hb, rfl⟩ := recordWithin_eq_some h
  have hready := hd.evolves hc hp
  have hp' := hready.proper hp
  refine htrans hready (.settled hb hc hp') (hd.rel hrefl htrans hdrain hc hp) ?_
  rcases settled_cases courier b ready with he | he
  · rw [he]
    exact hbuffers ready b
  · have hrebuffer := Evolves.rebuffer hb
    have hp'' := hrebuffer.proper hp'
    rw [he]
    exact htrans hrebuffer (.drain hc hp'') (hbuffers ready b) (hdrain _ hp'')

structure Emptiable (c : Cache) : Prop where
  room : 0 < c.engine.buffers.room
  count : 0 < c.engine.buffers.count
  awake : c.engine.buffers.Awake
  lock : c.lockHeld = false

structure Drainable (c : Cache) : Prop where
  room : 0 < c.engine.buffers.room
  count : 0 < c.engine.buffers.count
  sound : c.engine.buffers.Sound
  lock : c.lockHeld = false

namespace Drainable

theorem emptiable (h : c.Drainable) : c.Emptiable := ⟨h.room, h.count, h.sound.awake, h.lock⟩

theorem free (h : c.Drainable) : ¬ c.lockHeld = true := by
  rw [h.lock]
  exact Bool.false_ne_true

/-- What calls leave can take an event after a drain. -/
theorem evolves (h : c.Drainable) (he : c.Evolves c') (hs : c'.engine.buffers.Sound) :
    c'.Drainable :=
  ⟨he.engine.room ▸ h.room, he.engine.count ▸ h.count, hs, he.lock.trans h.lock⟩

end Drainable

/-- After a drain there is room in the buffer of a writer, unless the drain has used up a script. -/
theorem Emptiable.record_drain (h : c.Emptiable) (hf : courier.Frugal) (event : Event) :
    (c.drain courier).scriptsLeft < c.scriptsLeft ∨
      (c.drain courier).scriptsLeft = c.scriptsLeft ∧
        ∃ b, (c.drain courier).engine.buffers.recordOwn event = .ok b := by
  rcases hf c.drained with hless | ⟨hsame, hbuffers⟩
  · rw [scriptsLeft_drained] at hless
    exact Or.inl hless
  · -- No script ran, so the buffers are as empty as the drain has left them.
    rw [scriptsLeft_drained] at hsame
    rw [buffers_drained_of_awake h.awake] at hbuffers
    refine Or.inr ⟨hsame, ?_⟩
    rw [drain, hbuffers]
    exact Buffers.exists_recordOwn_emptied h.count h.room event

/-- One attempt per script that is left, and two more, are enough for a writer. -/
theorem exists_recordWithin (hf : courier.Frugal) (hI : ∀ c, I c → Emptiable c)
    (hdrain : ∀ c, I c → I (c.drain courier)) (h : I c)
    (hn : c.scriptsLeft + 1 < n ∨
      c.scriptsLeft < n ∧ ∃ b, c.engine.buffers.recordOwn event = .ok b) :
    ∃ c', recordWithin courier event n c = some c' := by
  induction n generalizing c with
  | zero => omega
  | succ n ih =>
    unfold recordWithin
    cases hr : c.engine.buffers.recordOwn event with
    | ok b => exact ⟨_, rfl⟩
    | error back =>
      cases Buffers.eq_of_record_eq_error hr
      have hlt : c.scriptsLeft + 1 < n + 1 := by
        rcases hn with hn | ⟨_, b, hb⟩
        · exact hn
        · exact absurd (hr.symm.trans hb) (by simp)
      have hd := hI c h
      simp only [hd.lock, Bool.false_eq_true, if_false]
      refine ih (hdrain c h) ?_
      rcases hd.record_drain hf event with hless | ⟨hsame, hroom⟩
      · exact Or.inl (Nat.lt_of_le_of_lt hless (Nat.lt_of_succ_lt_succ hlt))
      · exact Or.inr ⟨by omega, hroom⟩

/-- While the lock is free a writer gets its event in. -/
theorem exists_recordWrite (hf : courier.Frugal) (hI : ∀ c, I c → Emptiable c)
    (hdrain : ∀ c, I c → I (c.drain courier)) (h : I c) (event : Event) :
    ∃ c', c.recordWrite courier event = some c' :=
  exists_recordWithin hf hI hdrain h (Or.inl (by omega))

end Cache

end BoundedCache
