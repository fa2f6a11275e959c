import BoundedCache.Engine

namespace BoundedCache

namespace Buffers

variable {b b' : Buffers} {i j : Nat} {e ev : Event}

/-- All waiting events, in the order in which a drain replays them. -/
def events (b : Buffers) : List Event := b.stripes.flatMap (·.queue)

def emptied (b : Buffers) : Buffers := { b with stripes := b.stripes.map fun _ => {} }

def Sound (b : Buffers) : Prop :=
  ∀ buffer ∈ b.stripes, buffer.status = if buffer.queue = [] then .idle else .required

/-- No events wait in an idle buffer. A replay that has claimed a buffer may have emptied it, so
this holds also in the middle of a replay. -/
def Awake (b : Buffers) : Prop := ∀ buffer ∈ b.stripes, buffer.status = .idle → buffer.queue = []

theorem Sound.awake (h : b.Sound) : b.Awake := by
  intro buffer hb hidle
  have hstatus := h buffer hb
  rw [hidle] at hstatus
  split at hstatus
  · assumption
  · cases hstatus

theorem sound_ofLevel (level room thread : Nat) : (ofLevel level room thread).Sound := by
  intro buffer hb
  rw [List.eq_of_mem_replicate hb]
  rfl

theorem count_ofLevel_pos (level room thread : Nat) : 0 < (ofLevel level room thread).count := by
  have hpos : 0 < stripeCount level := by
    unfold stripeCount
    cases hf : [1, 2, 4, 8, 16, 32].find? (level ≤ ·) with
    | none => simp
    | some n =>
      have := List.mem_of_find?_eq_some hf
      simp at this
      simp
      omega
  simpa [ofLevel, count] using hpos

@[simp] theorem events_ofLevel (level room thread : Nat) :
    (ofLevel level room thread).events = [] := by
  simp [ofLevel, events]

@[simp] theorem events_emptied (b : Buffers) : b.emptied.events = [] := by
  simp [emptied, events]

@[simp] theorem count_emptied (b : Buffers) : b.emptied.count = b.count := by
  simp [emptied, count]

@[simp] theorem emptied_setBuffer (b : Buffers) (i : Nat) (new : Buffer) :
    (b.setBuffer i new).emptied = b.emptied := by
  simp [emptied, setBuffer, List.map_const']

theorem emptied_record (h : b.record i e = .ok b') : b'.emptied = b.emptied := by
  unfold record at h
  split at h
  · cases h
    exact emptied_setBuffer ..
  · cases h

theorem room_eq_of_emptied (h : b'.emptied = b.emptied) : b'.room = b.room :=
  congrArg (·.room) h

theorem count_eq_of_emptied (h : b'.emptied = b.emptied) : b'.count = b.count := by
  rw [← count_emptied b', h, count_emptied]

theorem own_eq_of_emptied (h : b'.emptied = b.emptied) : b'.own = b.own := by
  have hthread : b'.thread = b.thread := congrArg (·.thread) h
  rw [own, own, hthread, count_eq_of_emptied h]

theorem sound_emptied (b : Buffers) : b.emptied.Sound := by
  intro buffer hb
  simp only [emptied, List.mem_map] at hb
  obtain ⟨_, _, rfl⟩ := hb
  rfl

theorem queue_emptied (b : Buffers) (i : Nat) : b.emptied.queue i = [] := by
  simp only [queue, buffer, emptied, List.getElem?_map]
  cases b.stripes[i]? <;> rfl

theorem settled_iff :
    b.Settled ↔ b.events = [] ∧ ∀ buffer ∈ b.stripes, buffer.status = .idle := by
  constructor
  · intro h
    refine ⟨List.flatMap_eq_nil_iff.mpr fun buffer hb => ?_, fun buffer hb => ?_⟩
    · rw [h buffer hb]
    · rw [h buffer hb]
  · intro h buffer hb
    have hq : buffer.queue = [] := List.flatMap_eq_nil_iff.mp h.1 buffer hb
    have hs := h.2 buffer hb
    obtain ⟨queue, status⟩ := buffer
    cases hq
    cases hs
    rfl

theorem settled_emptied (b : Buffers) : b.emptied.Settled := by
  intro buffer hb
  obtain ⟨_, _, rfl⟩ := List.mem_map.mp hb
  rfl

namespace Settled

theorem awake (h : b.Settled) : b.Awake := fun buffer hb _ => by rw [h buffer hb]

/-- Settled buffers are what they would be with nothing in them. -/
theorem emptied_eq (h : b.Settled) : b.emptied = b := by
  have hsame : (b.stripes.map fun _ => {}) = b.stripes.map id :=
    List.map_congr_left fun buffer hb => (h buffer hb).symm
  rw [emptied, hsame, List.map_id]

end Settled

theorem pending_eq (b : Buffers) : b.pending = b.events.length := rfl

theorem mem_events_iff : ev ∈ b.events ↔ ∃ i, i < b.count ∧ ev ∈ b.queue i := by
  simp only [events, List.mem_flatMap, count, queue, buffer]
  constructor
  · rintro ⟨buffer, hb, hev⟩
    obtain ⟨i, hi, he⟩ := List.mem_iff_getElem.mp hb
    exact ⟨i, hi, by simpa [List.getElem?_eq_getElem hi, he] using hev⟩
  · rintro ⟨i, hi, hev⟩
    exact ⟨b.stripes[i], List.getElem_mem hi, by simpa [List.getElem?_eq_getElem hi] using hev⟩

theorem record_eq_ok (h : b.record i e = .ok b') :
    i < b.count ∧ (b.queue i).length < b.room ∧
      b' = b.setBuffer i ⟨b.queue i ++ [e], scheduled (b.status i)⟩ := by
  unfold record at h
  split at h
  · rename_i hi
    cases h
    exact ⟨hi.1, hi.2, rfl⟩
  · cases h

theorem exists_recordOwn (hcount : 0 < b.count) (hroom : (b.queue b.own).length < b.room)
    (e : Event) : ∃ b', b.recordOwn e = .ok b' :=
  ⟨_, if_pos ⟨own_lt hcount, hroom⟩⟩

/-- Empty buffers take an event. -/
theorem exists_recordOwn_emptied (hcount : 0 < b.count) (hroom : 0 < b.room) (e : Event) :
    ∃ b', b.emptied.recordOwn e = .ok b' := by
  refine exists_recordOwn ?_ ?_ e
  · rwa [count_emptied]
  · rwa [queue_emptied]

theorem record_eq_error_iff : (∃ back, b.record i e = .error back) ↔
    ¬ (i < b.count ∧ (b.queue i).length < b.room) := by
  unfold record
  split <;> simp_all

theorem queue_record (h : b.record i e = .ok b') (j : Nat) :
    b'.queue j = if j = i then b.queue i ++ [e] else b.queue j := by
  rw [queue, buffer_record h]
  split <;> rfl

theorem sound_record (hs : b.Sound) (h : b.record i e = .ok b') : b'.Sound := by
  obtain ⟨hi, _, rfl⟩ := record_eq_ok h
  intro buffer hb
  rcases List.mem_or_eq_of_mem_set hb with hb | rfl
  · exact hs buffer hb
  · have hmem : b.buffer i ∈ b.stripes := by
      rw [Buffers.buffer, List.getElem?_eq_getElem hi]
      exact List.getElem_mem hi
    have hstatus := hs _ hmem
    simp only [List.append_eq_nil_iff, List.cons_ne_self, and_false, if_false, status]
    rw [hstatus]
    split <;> rfl

/-- A buffer that has just taken an event calls for a drain. -/
theorem drainRequired_record (hs : b.Sound) (h : b.record i e = .ok b') :
    b'.drainRequired = true := by
  have hsound := sound_record hs h
  obtain ⟨hi, _, hb⟩ := record_eq_ok h
  have hmem : b'.buffer i ∈ b'.stripes := by
    have hi' : i < b'.stripes.length := by
      rw [hb]
      simpa [setBuffer, count] using hi
    rw [Buffers.buffer, List.getElem?_eq_getElem hi']
    exact List.getElem_mem hi'
  have hstatus := hsound _ hmem
  have hq : (b'.buffer i).queue ≠ [] := by
    rw [buffer_record h]
    simp
  rw [if_neg hq] at hstatus
  exact List.any_eq_true.mpr ⟨_, hmem, by simp [hstatus]⟩

theorem buffer_middle (b : Buffers) (done todo : List Buffer) (buffer : Buffer) :
    Buffers.buffer { b with stripes := done ++ buffer :: todo } done.length = buffer := by
  simp [Buffers.buffer]

theorem setBuffer_middle (b : Buffers) (done todo : List Buffer) (old new : Buffer) :
    Buffers.setBuffer { b with stripes := done ++ old :: todo } done.length new =
      { b with stripes := done ++ new :: todo } := by
  simp [setBuffer]

theorem exists_middle (hi : i < b.count) :
    ∃ done buffer todo, b = { b with stripes := done ++ buffer :: todo } ∧ done.length = i := by
  have hlt : i < b.stripes.length := hi
  refine ⟨b.stripes.take i, b.stripes[i], b.stripes.drop (i + 1), ?_, ?_⟩
  · rw [List.getElem_cons_drop, List.take_append_drop]
  · rw [List.length_take, Nat.min_eq_left (Nat.le_of_lt hlt)]

/-- Recording adds one event to those that wait. -/
theorem perm_events_record (h : b.record i e = .ok b') : b'.events.Perm (e :: b.events) := by
  obtain ⟨hi, _, rfl⟩ := record_eq_ok h
  obtain ⟨done, buffer, todo, hb, rfl⟩ := exists_middle hi
  rw [hb, setBuffer_middle]
  simp only [queue, buffer_middle, events, List.flatMap_append, List.flatMap_cons]
  rw [List.append_assoc, List.singleton_append]
  exact (List.perm_middle.append_left _).trans List.perm_middle

theorem pending_record (h : b.record i e = .ok b') : b'.pending = b.pending + 1 :=
  (perm_events_record h).length_eq

theorem mem_events_record (h : b.record i e = .ok b') :
    ev ∈ b'.events ↔ ev = e ∨ ev ∈ b.events :=
  (perm_events_record h).mem_iff.trans List.mem_cons

inductive Turns : Buffers → Buffers → Prop where
  | claim (b : Buffers) (i : Nat) : Turns b (b.setStatus i .processing)
  | take {b b' : Buffers} {i : Nat} {e : Event} (pop : b.pop i = some (e, b')) : Turns b b'
  | settle (b : Buffers) (i : Nat) : Turns b (b.settle i)

theorem pop_eq_some (h : b.pop i = some (e, b')) :
    ∃ rest, b.queue i = e :: rest ∧ b' = b.setBuffer i { b.buffer i with queue := rest } := by
  unfold pop at h
  split at h
  · cases h
  · cases h
    exact ⟨_, ‹_›, rfl⟩

theorem Turns.emptied (h : b.Turns b') : b'.emptied = b.emptied := by
  cases h with
  | claim | settle => exact emptied_setBuffer ..
  | take pop =>
    obtain ⟨rest, _, rfl⟩ := pop_eq_some pop
    exact emptied_setBuffer ..

namespace Awake

theorem setBuffer (h : b.Awake) {new : Buffer} (hn : new.status = .idle → new.queue = []) :
    (b.setBuffer i new).Awake := by
  intro buffer hb
  rcases List.mem_or_eq_of_mem_set hb with hb | rfl
  · exact h buffer hb
  · exact hn

theorem queue (h : b.Awake) (hi : b.status i = .idle) : b.queue i = [] := by
  unfold Buffers.queue
  unfold Buffers.status at hi
  cases hb : b.stripes[i]? with
  | none => simp [buffer, hb]
  | some buffer =>
    simp only [Buffers.buffer, hb, Option.getD_some] at hi ⊢
    exact h buffer (List.mem_of_getElem? hb) hi

theorem record (h : b.Awake) (hr : b.record i e = .ok b') : b'.Awake := by
  obtain ⟨_, _, rfl⟩ := record_eq_ok hr
  refine h.setBuffer fun hidle => ?_
  cases hs : b.status i <;> simp [scheduled, hs] at hidle

theorem turns (h : b.Awake) (hb : b.Turns b') : b'.Awake := by
  cases hb with
  | claim i => exact h.setBuffer fun hidle => absurd hidle (by simp)
  | @take _ i e pop =>
    obtain ⟨rest, hq, rfl⟩ := pop_eq_some pop
    -- A buffer that holds an event is not idle, and taking the event does not change that.
    exact h.setBuffer fun hidle => absurd ((h.queue hidle).symm.trans hq) (by simp)
  | settle i =>
    refine h.setBuffer fun hidle => ?_
    show b.queue i = []
    cases hq : b.queue i with
    | nil => rfl
    | cons e rest => simp [hq] at hidle

end Awake

end Buffers

namespace Buffered

variable {W : Type} [Buffered W] {R : W → W → Prop} {apply : Event → W → W} {w : W}

/-- A relation that holds across every turn of the buffers and every event holds across a replay. -/
theorem replay_rel (refl : ∀ w, R w w) (trans : ∀ {u v w}, R u v → R v w → R u w)
    (turn : ∀ w b, (buffers w).Turns b → R w (setBuffers b w))
    (step : ∀ e w, R w (apply e w)) (i n : Nat) (w : W) : R w (replay apply i n w).2 := by
  induction n generalizing w with
  | zero => exact refl w
  | succ n ih =>
    unfold replay
    cases hp : (buffers w).pop i with
    | none => exact refl w
    | some popped =>
      obtain ⟨e, b⟩ := popped
      exact trans (turn w b (.take hp)) (trans (step e _) (ih _))

theorem drainStripe_rel (refl : ∀ w, R w w) (trans : ∀ {u v w}, R u v → R v w → R u w)
    (turn : ∀ w b, (buffers w).Turns b → R w (setBuffers b w))
    (step : ∀ e w, R w (apply e w)) (i : Nat) (w : W) : R w (drainStripe apply i w).2 :=
  trans (turn w _ (.claim _ i))
    (trans (replay_rel refl trans turn step i _ _) (turn _ _ (.settle _ i)))

theorem drainStripes_rel (refl : ∀ w, R w w) (trans : ∀ {u v w}, R u v → R v w → R u w)
    (turn : ∀ w b, (buffers w).Turns b → R w (setBuffers b w))
    (step : ∀ e w, R w (apply e w)) (is : List Nat) (w : W) : R w (drainStripes apply is w).2 := by
  induction is generalizing w with
  | nil => exact refl w
  | cons i is ih =>
    unfold drainStripes
    split
    · exact ih w
    · exact trans (drainStripe_rel refl trans turn step i w) (ih _)

/-- A relation that holds across every turn of the buffers and every event holds across a drain. -/
theorem drain_rel_of_turns (refl : ∀ w, R w w) (trans : ∀ {u v w}, R u v → R v w → R u w)
    (turn : ∀ w b, (buffers w).Turns b → R w (setBuffers b w))
    (step : ∀ e w, R w (apply e w)) (w : W) : R w (drain apply w).2 :=
  drainStripes_rel refl trans turn step _ w

/-- So does a relation that holds across every change of what waits in the buffers. -/
theorem drain_rel (refl : ∀ w, R w w) (trans : ∀ {u v w}, R u v → R v w → R u w)
    (set : ∀ w b, b.emptied = (buffers w).emptied → R w (setBuffers b w))
    (step : ∀ e w, R w (apply e w)) (w : W) : R w (drain apply w).2 :=
  drain_rel_of_turns refl trans (fun w b h => set w b h.emptied) step w

/-- Between two events of a drain no events wait in an idle buffer, and none do after it. -/
theorem drain_awake (step : ∀ e w, (buffers w).Awake → (buffers (apply e w)).Awake)
    (h : (buffers w).Awake) : (buffers (drain apply w).2).Awake := by
  refine drain_rel_of_turns (R := fun w w' => (buffers w).Awake → (buffers w').Awake)
    (fun _ h => h) (fun h h' hw => h' (h hw)) (fun w b hb hw => ?_) step w h
  rw [buffers_setBuffers]
  exact hw.turns hb

section

variable {V : Type} [Buffered V] {apply' : Event → V → V} {S : W → V → Prop} {v : V}

/-- Two states that agree on the buffers before every event replay the same. -/
theorem replay_sim (hb : ∀ w v, S w v → buffers v = buffers w)
    (hs : ∀ b w v, S w v → S (setBuffers b w) (setBuffers b v))
    (ha : ∀ e w v, S w v → S (apply e w) (apply' e v)) (i n : Nat) (h : S w v) :
    (replay apply' i n v).1 = (replay apply i n w).1 ∧
      S (replay apply i n w).2 (replay apply' i n v).2 := by
  induction n generalizing w v with
  | zero => exact ⟨rfl, h⟩
  | succ n ih =>
    unfold replay
    rw [hb w v h]
    cases (buffers w).pop i with
    | none => exact ⟨rfl, h⟩
    | some popped =>
      obtain ⟨e, b⟩ := popped
      obtain ⟨hcount, hend⟩ := ih (ha e _ _ (hs b w v h))
      exact ⟨congrArg (· + 1) hcount, hend⟩

theorem drainStripe_sim (hb : ∀ w v, S w v → buffers v = buffers w)
    (hs : ∀ b w v, S w v → S (setBuffers b w) (setBuffers b v))
    (ha : ∀ e w v, S w v → S (apply e w) (apply' e v)) (i : Nat) (h : S w v) :
    (drainStripe apply' i v).1 = (drainStripe apply i w).1 ∧
      S (drainStripe apply i w).2 (drainStripe apply' i v).2 := by
  unfold drainStripe
  dsimp only
  rw [hb w v h]
  have hclaimed := hs ((buffers w).setStatus i .processing) w v h
  rw [hb _ _ hclaimed]
  obtain ⟨hcount, hend⟩ := replay_sim hb hs ha i
    ((buffers (setBuffers ((buffers w).setStatus i .processing) w)).queue i).length hclaimed
  rw [hb _ _ hend]
  exact ⟨hcount, hs _ _ _ hend⟩

/-- Two states that agree on the buffers before every event drain the same. -/
theorem drain_sim (hb : ∀ w v, S w v → buffers v = buffers w)
    (hs : ∀ b w v, S w v → S (setBuffers b w) (setBuffers b v))
    (ha : ∀ e w v, S w v → S (apply e w) (apply' e v)) (h : S w v) :
    (drain apply' v).1 = (drain apply w).1 ∧ S (drain apply w).2 (drain apply' v).2 := by
  have hstripes (is : List Nat) {w : W} {v : V} (h : S w v) :
      (drainStripes apply' is v).1 = (drainStripes apply is w).1 ∧
        S (drainStripes apply is w).2 (drainStripes apply' is v).2 := by
    induction is generalizing w v with
    | nil => exact ⟨rfl, h⟩
    | cons i is ih =>
      unfold drainStripes
      rw [hb w v h]
      split
      · exact ih h
      · obtain ⟨hcount, hnext⟩ := drainStripe_sim hb hs ha i h
        obtain ⟨hlater, hend⟩ := ih hnext
        refine ⟨?_, hend⟩
        dsimp only
        rw [hcount, hlater]
  unfold drain
  rw [hb w v h]
  exact hstripes _ h

/-- A map between states that leaves the buffers alone and takes each event to itself takes a drain
to a drain. -/
theorem drain_map {f : W → V} (hb : ∀ w, buffers (f w) = buffers w)
    (hs : ∀ b w, f (setBuffers b w) = setBuffers b (f w))
    (ha : ∀ e w, f (apply e w) = apply' e (f w)) (w : W) :
    drain apply' (f w) = ((drain apply w).1, f (drain apply w).2) := by
  have hsim := drain_sim (S := fun w v => v = f w) (fun w _ h => h ▸ hb w)
    (fun b w _ h => h ▸ (hs b w).symm) (fun e w _ h => h ▸ (ha e w).symm) (v := f w) rfl
  exact Prod.ext hsim.1 hsim.2

end

end Buffered

namespace Engine

variable {e : Engine} {b : Buffers} {i : Nat}

def applyAll (events : List Event) (e : Engine) : Engine := events.foldl (fun e ev => e.apply ev) e

/-- An event does not look at the buffers. -/
theorem apply_withBuffers (e : Engine) (b : Buffers) (ev : Event) :
    ({ e with buffers := b } : Engine).apply ev = { e.apply ev with buffers := b } := by
  obtain ⟨kind, id⟩ := ev
  unfold apply
  cases kind with
  | read | add | update =>
    dsimp only
    split <;> first | rfl | contradiction
  | remove =>
    dsimp only
    cases e.deque.slotOf id with
    | none => rfl
    | some slot =>
      dsimp only
      cases e.deque.unlink slot <;> rfl

/-- An event changes the deque and nothing else. -/
theorem exists_apply_eq (e : Engine) (ev : Event) : ∃ d, e.apply ev = { e with deque := d } := by
  obtain ⟨kind, id⟩ := ev
  unfold apply
  cases e.deque.slotOf id with
  | none =>
    cases e.pool.held id with
    | none => cases kind <;> exact ⟨_, rfl⟩
    | some held => cases kind <;> exact ⟨_, rfl⟩
  | some slot =>
    cases kind with
    | remove => cases hu : e.deque.unlink slot <;> exact ⟨_, by simp only [hu]; rfl⟩
    | read | add | update => cases e.pool.held id <;> exact ⟨_, rfl⟩

@[simp] theorem pool_apply (e : Engine) (ev : Event) : (e.apply ev).pool = e.pool := by
  obtain ⟨d, hd⟩ := exists_apply_eq e ev
  rw [hd]

@[simp] theorem store_apply (e : Engine) (ev : Event) : (e.apply ev).store = e.store := by
  obtain ⟨d, hd⟩ := exists_apply_eq e ev
  rw [hd]

@[simp] theorem buffers_apply (e : Engine) (ev : Event) : (e.apply ev).buffers = e.buffers := by
  obtain ⟨d, hd⟩ := exists_apply_eq e ev
  rw [hd]

theorem applyAll_withBuffers (e : Engine) (b : Buffers) (events : List Event) :
    ({ e with buffers := b } : Engine).applyAll events =
      { e.applyAll events with buffers := b } := by
  induction events generalizing e with
  | nil => rfl
  | cons ev events ih =>
    simp only [applyAll, List.foldl_cons, apply_withBuffers] at ih ⊢
    exact ih (e.apply ev)

/-- Events change the deque and nothing else. -/
@[simp] theorem pool_applyAll (e : Engine) (events : List Event) :
    (e.applyAll events).pool = e.pool := by
  induction events generalizing e with
  | nil => rfl
  | cons ev events ih => exact (ih (e.apply ev)).trans (pool_apply e ev)

theorem applyAll_append (e : Engine) (xs ys : List Event) :
    e.applyAll (xs ++ ys) = (e.applyAll xs).applyAll ys := by
  simp [applyAll, List.foldl_append]

/-- Replaying a buffer to its end applies its events in order. -/
theorem replay_buffer (b : Buffers) (done todo : List Buffer) (queue : List Event)
    (status : Status) (e : Engine) :
    Buffered.replay (fun ev e => Engine.apply e ev) done.length queue.length
        ({ e with buffers := { b with stripes := done ++ ⟨queue, status⟩ :: todo } } : Engine) =
      (queue.length,
        { e.applyAll queue with
          buffers := { b with stripes := done ++ ⟨[], status⟩ :: todo } }) := by
  induction queue generalizing e with
  | nil => rfl
  | cons ev rest ih =>
    simp only [List.length_cons, Buffered.replay, Buffered.buffers, Buffered.setBuffers,
      Buffers.pop, Buffers.queue, Buffers.buffer_middle, Buffers.setBuffer_middle,
      apply_withBuffers, ih]
    simp [applyAll]

/-- The drain of one buffer applies its events in order and leaves it empty and idle. -/
theorem drainStripe_eq (b : Buffers) (done todo : List Buffer) (buffer : Buffer) (e : Engine) :
    Buffered.drainStripe (fun ev e => Engine.apply e ev) done.length
        ({ e with buffers := { b with stripes := done ++ buffer :: todo } } : Engine) =
      (buffer.queue.length,
        { e.applyAll buffer.queue with
          buffers := { b with stripes := done ++ {} :: todo } }) := by
  simp only [Buffered.drainStripe, Buffered.buffers, Buffered.setBuffers, Buffers.setStatus,
    Buffers.queue, Buffers.buffer_middle, Buffers.setBuffer_middle, replay_buffer, Buffers.settle,
    List.isEmpty_nil, if_true]

/-- The drain of the buffers from a given one on, idle ones being empty. -/
theorem drainStripes_eq (b : Buffers) (done todo : List Buffer)
    (hs : Buffers.Awake { b with stripes := todo }) (e : Engine) :
    Buffered.drainStripes (fun ev e => Engine.apply e ev) (List.range' done.length todo.length)
        ({ e with buffers := { b with stripes := done ++ todo } } : Engine) =
      ((todo.flatMap (·.queue)).length,
        { e.applyAll (todo.flatMap (·.queue)) with
          buffers := { b with stripes := done ++ todo.map fun _ => {} } }) := by
  induction todo generalizing done e with
  | nil => rfl
  | cons buffer todo ih =>
    have hrest := ih (done ++ [⟨[], .idle⟩]) (fun x hx => hs x (List.mem_cons_of_mem buffer hx))
      (e.applyAll buffer.queue)
    simp only [List.length_append, List.length_singleton, List.append_assoc,
      List.singleton_append] at hrest
    simp only [List.length_cons, List.range'_succ, Buffered.drainStripes, Buffered.buffers,
      Buffers.status, Buffers.buffer_middle]
    split
    · rename_i hidle
      have hq : buffer.queue = [] := hs buffer (by simp) hidle
      have hb : buffer = ⟨[], .idle⟩ := by
        rw [← hq, ← hidle]
      subst hb
      simpa [applyAll] using hrest
    · rw [drainStripe_eq]
      simp only [hrest]
      simp [applyAll_append]

/-- A replay applies every waiting event and leaves every buffer empty and idle. -/
theorem replay_eq_of_awake (e : Engine) (hb : e.buffers.Awake) :
    e.replay = (e.buffers.events.length,
      { e.applyAll e.buffers.events with buffers := e.buffers.emptied }) := by
  have h := drainStripes_eq e.buffers [] e.buffers.stripes hb e
  rw [List.length_nil, ← List.range_eq_range'] at h
  exact h

theorem replay_eq (e : Engine) (hs : e.buffers.Sound) :
    e.replay = (e.buffers.events.length,
      { e.applyAll e.buffers.events with buffers := e.buffers.emptied }) :=
  replay_eq_of_awake e hs.awake

end Engine

end BoundedCache
