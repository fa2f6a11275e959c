import Mathlib.Data.List.Basic
import BoundedCache.Proofs.Buffers.Claims
import BoundedCache.Workbench

namespace BoundedCache

open Workbench (Recording)

structure Traffic where
  buffers : Buffers
  accepted : List Recording := []
  replayed : List Recording := []

instance : Buffered Traffic where
  buffers t := t.buffers
  setBuffers b t := { t with buffers := b }
  buffers_setBuffers _ _ := rfl

namespace Traffic

def start (room count : Nat) : Traffic :=
  { buffers := { room, stripes := List.replicate count {} } }

def record (r : Recording) (t : Traffic) : Option Event × Traffic :=
  match t.buffers.record r.stripe r.event with
  | .ok buffers => (none, { t with buffers, accepted := t.accepted ++ [r] })
  | .error back => (some back, t)

def recordAll (rs : List Recording) (t : Traffic) : Traffic :=
  rs.foldl (fun t r => (t.record r).2) t

/-- The first buffer that a drain in progress has claimed. -/
def claimed (t : Traffic) : Nat := t.buffers.statuses.idxOf .processing

/-- What the user of a drain records on account of an event, given all that happened before. -/
abbrev Callback := Event → Traffic → List Recording

/-- An event is replayed: it counts for the claimed buffer, then further events are recorded. -/
def replay (callback : Callback) (e : Event) (t : Traffic) : Traffic :=
  let t := { t with replayed := t.replayed ++ [Recording.mk t.claimed e] }
  t.recordAll (callback e t)

def drain (callback : Callback) (t : Traffic) : Nat × Traffic :=
  Buffered.drain (replay callback) t

inductive Request where
  | record (recording : Recording)
  | drain (callback : Callback)

def run (t : Traffic) : Request → Traffic
  | .record recording => (t.record recording).2
  | .drain callback => (t.drain callback).2

def runAll (requests : List Request) (t : Traffic) : Traffic := requests.foldl run t

def ofStripe (i : Nat) (rs : List Recording) : List Event :=
  (rs.filter (·.stripe = i)).map (·.event)

/-- What a drain finds when it comes to a buffer. -/
def found (callback : Callback) (t : Traffic) (i : Nat) : List Recording :=
  let now := (Buffered.drainStripes (replay callback) (List.range i) t).2
  (now.buffers.queue i).map fun e => ⟨i, e⟩

variable {t t' t'' : Traffic} {r : Recording} {rs : List Recording} {callback callback' : Callback}
  {i : Nat} {todo later : List Event} {requests : List Request}

@[simp] theorem ofStripe_append (i : Nat) (rs rs' : List Recording) :
    ofStripe i (rs ++ rs') = ofStripe i rs ++ ofStripe i rs' := by
  simp [ofStripe]

theorem ofStripe_singleton (i : Nat) (r : Recording) :
    ofStripe i [r] = if r.stripe = i then [r.event] else [] := by
  unfold ofStripe
  by_cases h : r.stripe = i <;> simp [h]

/-- A full buffer gives the event back, and nothing changes. -/
theorem record_of_full (h : t.buffers.room ≤ (t.buffers.queue r.stripe).length) :
    t.record r = (some r.event, t) := by
  have hfull : ¬ (r.stripe < t.buffers.count ∧
      (t.buffers.queue r.stripe).length < t.buffers.room) := fun hr => by omega
  simp [record, Buffers.record, hfull]

/-- Any other buffer takes the event in at its end. -/
theorem record_of_room (hi : r.stripe < t.buffers.count)
    (h : (t.buffers.queue r.stripe).length < t.buffers.room) :
    ∃ b, t.record r = (none, { t with buffers := b, accepted := t.accepted ++ [r] }) ∧
      ∀ i, b.queue i = t.buffers.queue i ++ if i = r.stripe then [r.event] else [] := by
  have hr : t.buffers.record r.stripe r.event = .ok (t.buffers.setBuffer r.stripe
      ⟨t.buffers.queue r.stripe ++ [r.event], Buffers.scheduled (t.buffers.status r.stripe)⟩) :=
    if_pos ⟨hi, h⟩
  refine ⟨_, by rw [record, hr], fun i => ?_⟩
  rw [Buffers.queue_record hr]
  split
  · rename_i he
    rw [he]
  · rw [List.append_nil]

structure Grows (t t' : Traffic) : Prop where
  room : t'.buffers.room = t.buffers.room
  count : t'.buffers.count = t.buffers.count
  replayed : t'.replayed = t.replayed
  added : ∀ i, ∃ new, t'.buffers.queue i = t.buffers.queue i ++ new ∧
    ofStripe i t'.accepted = ofStripe i t.accepted ++ new
  bounded : ∀ i, (t.buffers.queue i).length ≤ t.buffers.room →
    (t'.buffers.queue i).length ≤ t.buffers.room
  status : ∀ i, t.buffers.status i = .processing → t'.buffers.status i = .processing
  sound : ∀ claimed, t.buffers.SoundBut claimed → t'.buffers.SoundBut claimed

namespace Grows

theorem refl (t : Traffic) : t.Grows t where
  room := rfl
  count := rfl
  replayed := rfl
  added := fun i => ⟨[], by simp⟩
  bounded := fun _ h => h
  status := fun _ h => h
  sound := fun _ h => h

theorem trans (h : t.Grows t') (h' : t'.Grows t'') : t.Grows t'' where
  room := h'.room.trans h.room
  count := h'.count.trans h.count
  replayed := h'.replayed.trans h.replayed
  added := fun i => by
    obtain ⟨new, hq, ha⟩ := h.added i
    obtain ⟨new', hq', ha'⟩ := h'.added i
    exact ⟨new ++ new', by rw [hq', hq, List.append_assoc], by rw [ha', ha, List.append_assoc]⟩
  bounded := fun i hb => h.room ▸ h'.bounded i (h.room ▸ h.bounded i hb)
  status := fun i hs => h'.status i (h.status i hs)
  sound := fun claimed hs => h'.sound claimed (h.sound claimed hs)

theorem record (r : Recording) (t : Traffic) : t.Grows (t.record r).2 := by
  unfold Traffic.record
  cases hr : t.buffers.record r.stripe r.event with
  | error back => exact refl t
  | ok b =>
    obtain ⟨_, hroom, hb⟩ := Buffers.record_eq_ok hr
    have hqueue := Buffers.queue_record hr
    refine ⟨by rw [hb]; rfl, by rw [hb]; exact Buffers.count_setBuffer _ _ _, rfl, fun i => ?_,
      fun i hbounded => ?_, fun i hs => ?_, fun claimed hs => hs.record hr⟩
    · by_cases hi : i = r.stripe
      · refine ⟨[r.event], ?_, ?_⟩
        · simp [hqueue, hi]
        · simp [ofStripe_singleton, hi]
      · refine ⟨[], ?_, ?_⟩
        · simp [hqueue, hi]
        · simp [ofStripe_singleton, Ne.symm hi]
    · rw [hqueue]
      split
      · rw [List.length_append]
        exact hroom
      · exact hbounded
    · rw [Buffers.status, Buffers.buffer_record hr]
      split
      · rename_i hi
        rw [← hi, hs]
        rfl
      · exact hs

theorem recordAll (rs : List Recording) (t : Traffic) : t.Grows (t.recordAll rs) := by
  induction rs generalizing t with
  | nil => exact refl t
  | cons r rs ih => exact (record r t).trans (ih _)

end Grows

/-- What came out of each buffer and what waits in it is what went in, and it holds no more than
there is room for. -/
structure Balanced (t : Traffic) : Prop where
  log : ∀ i, ofStripe i t.replayed ++ t.buffers.queue i = ofStripe i t.accepted
  bounded : ∀ i, (t.buffers.queue i).length ≤ t.buffers.room

theorem Balanced.grows (h : t.Balanced) (hg : t.Grows t') : t'.Balanced where
  log := fun i => by
    obtain ⟨new, hq, ha⟩ := hg.added i
    rw [hg.replayed, hq, ha, ← h.log i, List.append_assoc]
  bounded := fun i => hg.room ▸ hg.bounded i (h.bounded i)

structure Lossless (t : Traffic) : Prop extends Balanced t where
  sound : t.buffers.Sound

/-- During the replay of a buffer, its status says so, and every other status says whether there are
events. -/
structure Replaying (i : Nat) (t : Traffic) : Prop extends Balanced t where
  status : t.buffers.status i = .processing
  others : t.buffers.SoundBut [i]

namespace Replaying

theorem grows (h : t.Replaying i) (hg : t.Grows t') : t'.Replaying i where
  toBalanced := h.toBalanced.grows hg
  status := hg.status i h.status
  others := hg.sound [i] h.others

theorem lt_count (h : t.Replaying i) : i < t.buffers.count := by
  by_contra hi
  have hstatus := h.status
  rw [Buffers.status, Buffers.buffer_of_count_le (Nat.le_of_not_lt hi)] at hstatus
  cases hstatus

/-- No buffer before this one is claimed. -/
theorem claimed_eq (h : t.Replaying i) : t.claimed = i := by
  obtain ⟨done, buffer, rest, hb, rfl⟩ := Buffers.exists_middle h.lt_count
  have hstatus := h.status
  rw [Buffers.status, hb, Buffers.buffer_middle] at hstatus
  have hdone : Status.processing ∉ done.map (·.status) := by
    intro hm
    obtain ⟨other, ho, he⟩ := List.mem_map.mp hm
    obtain ⟨j, hj, rfl⟩ := List.mem_iff_getElem.mp ho
    refine (h.others j (by simp; omega)).ne_processing ?_
    rw [Buffers.status, hb, Buffers.buffer, List.getElem?_append_left hj,
      List.getElem?_eq_getElem hj]
    exact he
  rw [claimed, Buffers.statuses, hb, List.map_append, List.map_cons,
    List.idxOf_append_of_notMem hdone, hstatus, List.idxOf_cons_self, List.length_map,
    Nat.add_zero]

/-- The oldest event leaves its queue for the log. -/
theorem shift (h : t.Replaying i) {e : Event} {rest : List Event}
    (hq : t.buffers.queue i = e :: rest) :
    Replaying i
        { t with
          buffers := t.buffers.setBuffer i { t.buffers.buffer i with queue := rest }
          replayed := t.replayed ++ [⟨i, e⟩] } := by
  have hbuffer (j : Nat) := Buffers.buffer_setBuffer t.buffers i j
    { t.buffers.buffer i with queue := rest } h.lt_count
  refine { log := fun j => ?_, bounded := fun j => ?_, status := ?_,
           others := h.others.setBuffer List.mem_cons_self _ }
  · have hlog := h.log j
    by_cases hj : j = i
    · subst hj
      rw [hq] at hlog
      simpa [Buffers.queue, hbuffer, ofStripe_singleton] using hlog
    · simpa [Buffers.queue, hbuffer, hj, ofStripe_singleton, Ne.symm hj] using hlog
  · have hbounded := h.bounded j
    by_cases hj : j = i
    · subst hj
      rw [hq] at hbounded
      simp only [Buffers.queue, hbuffer, if_true]
      exact Nat.le_of_succ_le hbounded
    · simp only [Buffers.queue, hbuffer, if_neg hj]
      exact hbounded
  · rw [Buffers.status, hbuffer, if_pos rfl]
    exact h.status

theorem buffers_pop {e : Event} {b : Buffers} (hp : t.buffers.pop i = some (e, b)) :
    ∃ rest, t.buffers.queue i = e :: rest ∧
      b = t.buffers.setBuffer i { t.buffers.buffer i with queue := rest } := by
  unfold Buffers.pop at hp
  split at hp
  · cases hp
  · rename_i rest hq
    cases hp
    exact ⟨rest, hq, rfl⟩

/-- The callback is asked only in states whose logs balance. -/
theorem replay_congr (hc : ∀ e now, Balanced now → callback' e now = callback e now)
    (h : t.Replaying i) (n : Nat) :
    Buffered.replay (replay callback') i n t = Buffered.replay (replay callback) i n t := by
  induction n generalizing t with
  | zero => rfl
  | succ n ih =>
    unfold Buffered.replay
    cases hp : (Buffered.buffers t).pop i with
    | none => rfl
    | some popped =>
      obtain ⟨e, b⟩ := popped
      obtain ⟨rest, hq, rfl⟩ := buffers_pop hp
      have hshift := h.shift hq
      have hclaimed : claimed { t with
          buffers := t.buffers.setBuffer i { t.buffers.buffer i with queue := rest } } = i :=
        hshift.claimed_eq
      have hstep : replay callback' e (Buffered.setBuffers
            (t.buffers.setBuffer i { t.buffers.buffer i with queue := rest }) t) =
          replay callback e (Buffered.setBuffers
            (t.buffers.setBuffer i { t.buffers.buffer i with queue := rest }) t) := by
        simp only [Traffic.replay, Buffered.setBuffers, hclaimed, hc e _ hshift.toBalanced]
      have hnext : Replaying i (replay callback e (Buffered.setBuffers
            (t.buffers.setBuffer i { t.buffers.buffer i with queue := rest }) t)) := by
        simp only [Traffic.replay, Buffered.setBuffers, hclaimed]
        exact hshift.grows (Grows.recordAll _ _)
      simp only [hstep, ih hnext]

/-- The events that wait are replayed, oldest first, and what is recorded meanwhile is not. -/
theorem replay_eq (callback : Callback) (h : t.Replaying i) (hq : t.buffers.queue i = todo ++ later) :
    ∃ t', Buffered.replay (replay callback) i todo.length t = (todo.length, t') ∧
      t'.Replaying i ∧ t'.replayed = t.replayed ++ todo.map fun e => ⟨i, e⟩ := by
  induction todo generalizing t later with
  | nil => exact ⟨t, rfl, h, by simp⟩
  | cons e todo ih =>
    have hshift := h.shift hq
    have hclaimed : claimed { t with
        buffers := t.buffers.setBuffer i { t.buffers.buffer i with queue := todo ++ later } } = i :=
      hshift.claimed_eq
    generalize hnow : ({ t with
      buffers := t.buffers.setBuffer i { t.buffers.buffer i with queue := todo ++ later }
      replayed := t.replayed ++ [⟨i, e⟩] } : Traffic) = now at hshift
    have hqueue : now.buffers.queue i = todo ++ later := by
      rw [← hnow, Buffers.queue, Buffers.buffer_setBuffer _ _ _ _ h.lt_count, if_pos rfl]
    have hgrows := Grows.recordAll (callback e now) now
    obtain ⟨new, hnew, _⟩ := hgrows.added i
    rw [hqueue, List.append_assoc] at hnew
    obtain ⟨t', hreplay, hlast, hlog⟩ := ih (hshift.grows hgrows) hnew
    refine ⟨t', ?_, hlast, ?_⟩
    · simp only [List.length_cons, Buffered.replay, Buffered.buffers, Buffers.pop, hq,
        List.cons_append, Buffered.setBuffers, Traffic.replay, hclaimed, hnow, hreplay]
    · rw [hlog, hgrows.replayed, ← hnow]
      simp

end Replaying

namespace Lossless

theorem lt_count (hi : t.buffers.status i ≠ .idle) : i < t.buffers.count := by
  by_contra hle
  rw [Buffers.status, Buffers.buffer_of_count_le (Nat.le_of_not_lt hle)] at hi
  exact hi rfl

/-- A change of status leaves every queue alone. -/
theorem queue_setStatus {b : Buffers} (hi : i < b.count) (s : Status) (j : Nat) :
    (b.setStatus i s).queue j = b.queue j := by
  rw [Buffers.queue, Buffers.setStatus, Buffers.buffer_setBuffer _ _ _ _ hi]
  split
  · rename_i he
    rw [he, Buffers.queue]
  · rfl

/-- A buffer is claimed. -/
theorem claim (h : t.Lossless) (hi : t.buffers.status i ≠ .idle) :
    Replaying i { t with buffers := t.buffers.setStatus i .processing } where
  log := fun j => by rw [queue_setStatus (lt_count hi)]; exact h.log j
  bounded := fun j => by rw [queue_setStatus (lt_count hi)]; exact h.bounded j
  status := by
    rw [Buffers.status, Buffers.setStatus, Buffers.buffer_setBuffer _ _ _ _ (lt_count hi), if_pos rfl]
  others := (Buffers.soundBut_nil.mpr h.sound).claim i

/-- A drain replays from a buffer what waits in it when the buffer is claimed. -/
theorem drainStripe (callback : Callback) (h : t.Lossless) (hi : t.buffers.status i ≠ .idle) :
    ∃ t', Buffered.drainStripe (replay callback) i t = ((t.buffers.queue i).length, t') ∧
      t'.Lossless ∧ t'.replayed = t.replayed ++ (t.buffers.queue i).map fun e => ⟨i, e⟩ := by
  have hqueue := queue_setStatus (lt_count hi) .processing
  have hall : (t.buffers.setStatus i .processing).queue i = t.buffers.queue i ++ [] := by
    rw [hqueue, List.append_nil]
  obtain ⟨t', hreplay, hlast, hlog⟩ := (h.claim hi).replay_eq callback hall
  have hsettled (j : Nat) : (t'.buffers.settle i).queue j = t'.buffers.queue j :=
    queue_setStatus hlast.lt_count _ j
  refine ⟨{ t' with buffers := t'.buffers.settle i }, ?_, ?_, hlog⟩
  · simp only [Buffered.drainStripe, Buffered.buffers, Buffered.setBuffers, hqueue, hreplay]
  · exact { log := fun j => by rw [hsettled]; exact hlast.log j
            bounded := fun j => by rw [hsettled]; exact hlast.bounded j
            sound := Buffers.soundBut_nil.mp hlast.others.settle }

/-- So it does if it passes over the buffer, for then nothing waits in it. -/
theorem drainStripes_singleton (callback : Callback) (h : t.Lossless) (i : Nat) :
    ∃ t', Buffered.drainStripes (replay callback) [i] t = ((t.buffers.queue i).length, t') ∧
      t'.Lossless ∧ t'.replayed = t.replayed ++ (t.buffers.queue i).map fun e => ⟨i, e⟩ := by
  by_cases hi : t.buffers.status i = .idle
  · have hempty := (Buffers.soundBut_nil.mpr h.sound i List.not_mem_nil).idle_iff.mp hi
    refine ⟨t, ?_, h, by simp [hempty]⟩
    simp only [Buffered.drainStripes, Buffered.buffers, if_pos hi, hempty, List.length_nil]
  · obtain ⟨t', hdrain, hlast, hlog⟩ := h.drainStripe callback hi
    refine ⟨t', ?_, hlast, hlog⟩
    simp only [Buffered.drainStripes, Buffered.buffers, if_neg hi, hdrain, Nat.add_zero]

theorem drainStripes_range (h : t.Lossless) (callback : Callback) (n : Nat) :
    ∃ t', Buffered.drainStripes (replay callback) (List.range n) t =
        (((List.range n).flatMap (t.found callback)).length, t') ∧
      t'.Lossless ∧ t'.replayed = t.replayed ++ (List.range n).flatMap (t.found callback) := by
  induction n with
  | zero => exact ⟨t, rfl, h, by simp⟩
  | succ n ih =>
    obtain ⟨t1, hdrain, h1, hlog⟩ := ih
    obtain ⟨t', hlast, h', hlog'⟩ := h1.drainStripes_singleton callback n
    have hfound : t.found callback n = (t1.buffers.queue n).map fun e => ⟨n, e⟩ := by
      rw [found, hdrain]
    refine ⟨t', ?_, h', ?_⟩
    · rw [List.range_succ, Buffered.drainStripes_append, hdrain, hlast]
      simp [hfound]
    · rw [hlog', hlog, List.range_succ, List.flatMap_append, List.flatMap_singleton, hfound,
        List.append_assoc]

theorem drainStripes_congr (hc : ∀ e now, Balanced now → callback' e now = callback e now)
    (h : t.Lossless) (is : List Nat) : Buffered.drainStripes (replay callback') is t =
      Buffered.drainStripes (replay callback) is t := by
  induction is generalizing t with
  | nil => rfl
  | cons i is ih =>
    unfold Buffered.drainStripes
    split
    · exact ih h
    · rename_i hi
      have hstripe : Buffered.drainStripe (replay callback') i t =
          Buffered.drainStripe (replay callback) i t := by
        simp only [Buffered.drainStripe, Buffered.buffers, Buffered.setBuffers,
          (h.claim hi).replay_congr hc]
      obtain ⟨t', hdrain, hlast, _⟩ := h.drainStripe callback hi
      simp only [hstripe, hdrain, ih hlast]

/-- A drain replays, buffer by buffer, what it finds in each. -/
theorem drain (h : t.Lossless) (callback : Callback) :
    ∃ t', t.drain callback =
        (((List.range t.buffers.count).flatMap (t.found callback)).length, t') ∧
      t'.Lossless ∧
      t'.replayed = t.replayed ++ (List.range t.buffers.count).flatMap (t.found callback) :=
  h.drainStripes_range callback t.buffers.count

theorem run (h : t.Lossless) (request : Request) : (t.run request).Lossless := by
  cases request with
  | record r =>
    have hgrows := Grows.record r t
    exact ⟨h.toBalanced.grows hgrows,
      Buffers.soundBut_nil.mp (hgrows.sound [] (Buffers.soundBut_nil.mpr h.sound))⟩
  | drain callback =>
    obtain ⟨t', hdrain, h', _⟩ := h.drain callback
    rw [Traffic.run, hdrain]
    exact h'

theorem runAll (h : t.Lossless) (requests : List Request) : (t.runAll requests).Lossless := by
  induction requests generalizing t with
  | nil => exact h
  | cons request rest ih => exact ih (h.run request)

theorem start (room count : Nat) : (start room count).Lossless := by
  have hqueue (i : Nat) : (Traffic.start room count).buffers.queue i = [] := by
    rw [Buffers.queue, Buffers.buffer, Traffic.start, List.getElem?_replicate]
    split <;> rfl
  refine { log := fun i => ?_, bounded := fun i => by simp [hqueue], sound := fun buffer hb => ?_ }
  · rw [hqueue]
    rfl
  · rw [List.eq_of_mem_replicate hb]
    rfl

end Lossless

/-- Nothing changes how many buffers there are and what each can hold. -/
theorem shape_run (t : Traffic) (request : Request) :
    (t.run request).buffers.room = t.buffers.room ∧
      (t.run request).buffers.count = t.buffers.count := by
  cases request with
  | record r => exact ⟨(Grows.record r t).room, (Grows.record r t).count⟩
  | drain callback =>
    refine Buffered.drain_rel (W := Traffic)
      (R := fun u v => v.buffers.room = u.buffers.room ∧ v.buffers.count = u.buffers.count)
      (fun _ => ⟨rfl, rfl⟩) (fun h h' => ⟨h'.1.trans h.1, h'.2.trans h.2⟩)
      (fun _ _ h => ⟨Buffers.room_eq_of_emptied h, Buffers.count_eq_of_emptied h⟩) (fun e w => ?_) t
    have hgrows := Grows.recordAll (callback e { w with
      replayed := w.replayed ++ [Recording.mk w.claimed e] }) { w with
      replayed := w.replayed ++ [Recording.mk w.claimed e] }
    exact ⟨hgrows.room, hgrows.count⟩

theorem shape_runAll (t : Traffic) (requests : List Request) :
    (t.runAll requests).buffers.room = t.buffers.room ∧
      (t.runAll requests).buffers.count = t.buffers.count := by
  induction requests generalizing t with
  | nil => exact ⟨rfl, rfl⟩
  | cons request rest ih =>
    obtain ⟨hroom, hcount⟩ := shape_run t request
    obtain ⟨hroom', hcount'⟩ := ih (t.run request)
    exact ⟨hroom'.trans hroom, hcount'.trans hcount⟩

/-- Buffers are lossless logs, whatever is recorded and drained, and recorded from within drains.
What came out of a buffer, followed by what waits in it, is what it accepted, in order; no callback
is asked while this fails. A drain replays, in the order of the buffers, what waits in each when it
comes to it. A full buffer gives an event back and nothing changes; any other takes it in. Outside a
drain a buffer is idle just in case it is empty, and else waits for a drain. -/
theorem lossless_runAll (room count : Nat) (requests : List Request) {t : Traffic}
    (ht : (start room count).runAll requests = t) :
    (∀ i, ofStripe i t.replayed ++ t.buffers.queue i = ofStripe i t.accepted) ∧
    (∀ callback callback', (∀ e now, Balanced now → callback' e now = callback e now) →
      t.drain callback' = t.drain callback) ∧
    (∀ callback, (t.drain callback).1 = ((List.range count).flatMap (t.found callback)).length ∧
      (t.drain callback).2.replayed =
        t.replayed ++ (List.range count).flatMap (t.found callback)) ∧
    (∀ (now : Traffic) (r : Recording), (now.buffers.queue r.stripe).length = now.buffers.room →
      now.record r = (some r.event, now)) ∧
    (∀ (now : Traffic) (r : Recording), r.stripe < now.buffers.count →
      (now.buffers.queue r.stripe).length < now.buffers.room →
      ∃ b, now.record r = (none, { now with buffers := b, accepted := now.accepted ++ [r] }) ∧
        ∀ i, b.queue i = now.buffers.queue i ++ if i = r.stripe then [r.event] else []) ∧
    ∀ i, (t.buffers.status i = .idle ↔ t.buffers.queue i = []) ∧
      t.buffers.status i ≠ .processing ∧ (t.buffers.queue i).length ≤ room := by
  have h : t.Lossless := ht ▸ (Lossless.start room count).runAll requests
  have hshape := shape_runAll (start room count) requests
  rw [ht] at hshape
  have hroom : t.buffers.room = room := hshape.1
  have hcount : t.buffers.count = count := hshape.2.trans List.length_replicate
  refine ⟨h.log, fun _ _ hc => h.drainStripes_congr hc _, fun callback => ?_,
    fun _ _ hfull => record_of_full (Nat.le_of_eq hfull.symm),
    fun _ _ hi hr => record_of_room hi hr, fun i => ?_⟩
  · obtain ⟨t', hdrain, _, hlog⟩ := h.drain callback
    rw [hcount] at hdrain hlog
    rw [hdrain]
    exact ⟨rfl, hlog⟩
  · have hat := Buffers.soundBut_nil.mpr h.sound i List.not_mem_nil
    exact ⟨hat.idle_iff, hat.ne_processing, hroom ▸ h.bounded i⟩

def echo : Callback := fun e _ =>
  if e.kind = .add then (List.range 3).map fun i => ⟨i, ⟨.update, e.node⟩⟩ else []

/-- The updates of the first addition reach a buffer that is passed, the one that is replayed and
one that is full and still to come. -/
def echoing : List Request :=
  [.record ⟨1, ⟨.add, 1⟩⟩, .record ⟨2, ⟨.add, 2⟩⟩, .record ⟨2, ⟨.read, 1⟩⟩, .drain echo]

theorem lossless_runAll_echoing :
    (((start 2 3).runAll echoing).drain fun _ _ => []).2.replayed =
      [⟨1, ⟨.add, 1⟩⟩, ⟨2, ⟨.add, 2⟩⟩, ⟨2, ⟨.read, 1⟩⟩, ⟨0, ⟨.update, 1⟩⟩, ⟨0, ⟨.update, 2⟩⟩,
        ⟨1, ⟨.update, 1⟩⟩, ⟨1, ⟨.update, 2⟩⟩, ⟨2, ⟨.update, 2⟩⟩] := by
  rw [((lossless_runAll 2 3 echoing rfl).2.2.1 _).2]
  decide

end Traffic

end BoundedCache
