import Mathlib
import BoundedCache.Proofs.Cache.Arises

namespace BoundedCache

namespace Cache

variable {c c' ready ready' : Cache} {courier : Courier} {event : Event} {b b' : Buffers} {n : Nat}
  {refusals refusals' : List Cache} {l l' : Listener (List Op)} {s : Settings} {stage : Stage}

def scriptsRun (c : Cache) : Nat := c.relay.notices.countP (·.reaction.isSome)

@[simp] theorem scriptsRun_drained (c : Cache) : c.drained.scriptsRun = c.scriptsRun := by
  rw [scriptsRun, notices_drained, scriptsRun]

/-- Being told of an entry, the listener runs the script that it takes, if it takes one. -/
theorem scriptsRun_tell (l : Listener (List Op)) (e : Entry) (c : Cache) :
    (c.tell l e).scriptsRun = c.scriptsRun + (l.respond e).1.script.toList.length := by
  cases hs : (l.respond e).1.script with
  | none =>
    rw [tell_of_silent hs]
    simp [scriptsRun, Relay.log]
  | some script =>
    have hnotices : (c.reaction script).2.relay.notices = c.relay.notices :=
      (Op.runAll_course Courier.moving_busy script c).undelivered.1
    rw [tell_of_script hs]
    simp [scriptsRun, Relay.log, hnotices]

/-- In a delivery, the scripts that the listener has no more are those that were run. -/
theorem Deliveries.scripts (h : Deliveries l c n l' c') :
    l'.supply + c'.scriptsRun = l.supply + c.scriptsRun := by
  induction h with
  | done => rfl
  | @next l l' c c' e rest n _ _ ih =>
    have hsupply := Listener.supply_respond l e
    have hdequeue : (c.dequeue rest).scriptsRun = c.scriptsRun := rfl
    rw [scriptsRun_tell, hdequeue] at ih
    omega

/-- A script is left or was run, whatever is delivered. -/
theorem scripts_courier (stage : Stage) (c : Cache) :
    (stage.courier c).2.scriptsLeft + (stage.courier c).2.scriptsRun =
      c.scriptsLeft + c.scriptsRun := by
  cases stage with
  | reaction => rfl
  | top =>
    change c.deliver.2.scriptsLeft + c.deliver.2.scriptsRun = _
    rcases deliver_cases c with ⟨_, hd⟩ | ⟨l, n, l', c', hl, hdel, hd⟩
    · rw [hd]
    · have hscripts := hdel.scripts
      have hleft : c.scriptsLeft = l.supply := by simp [scriptsLeft, hl]
      rw [hd, hleft]
      exact hscripts

theorem scripts_drain (stage : Stage) (c : Cache) :
    (c.drain stage.courier).scriptsLeft + (c.drain stage.courier).scriptsRun =
      c.scriptsLeft + c.scriptsRun := by
  have hscripts := scripts_courier stage c.drained
  rwa [scriptsLeft_drained, scriptsRun_drained] at hscripts

/-- The attempts of a writer from a cache on: the caches in which its event was refused, each
followed by a drain, the one in which it was accepted, and the buffers that hold it then. -/
inductive Attempts (courier : Courier) (event : Event) :
    Cache → List Cache → Cache → Buffers → Prop where
  | accepted {c : Cache} {b : Buffers} (taken : c.engine.buffers.recordOwn event = .ok b) :
      Attempts courier event c [] c b
  | refused {c ready : Cache} {refusals : List Cache} {b : Buffers}
      (full : c.engine.buffers.recordOwn event = .error event) (free : c.lockHeld = false)
      (later : Attempts courier event (c.drain courier) refusals ready b) :
      Attempts courier event c (c :: refusals) ready b

namespace Attempts

/-- The attempts of a writer take one course. -/
theorem unique (h : Attempts courier event c refusals ready b)
    (h' : Attempts courier event c refusals' ready' b') :
    refusals' = refusals ∧ ready' = ready ∧ b' = b := by
  induction h generalizing refusals' with
  | accepted taken =>
    cases h' with
    | accepted taken' =>
      rw [taken] at taken'
      cases taken'
      exact ⟨rfl, rfl, rfl⟩
    | refused full => cases taken.symm.trans full
  | refused full free later ih =>
    cases h' with
    | accepted taken => cases full.symm.trans taken
    | refused _ _ later' =>
      obtain ⟨rfl, rfl, rfl⟩ := ih later'
      exact ⟨rfl, rfl, rfl⟩

/-- The attempt that ends the loop finds room. -/
theorem taken (h : Attempts courier event c refusals ready b) :
    ready.engine.buffers.recordOwn event = .ok b := by
  induction h with
  | accepted taken => exact taken
  | refused _ _ _ ih => exact ih

/-- A bound on the rounds that admits all of them stops none. -/
theorem recordWithin_eq (h : Attempts courier event c refusals ready b)
    (hn : refusals.length < n) :
    recordWithin courier event n c = some (ready.settled courier b) := by
  induction h generalizing n with
  | accepted taken =>
    cases n with
    | zero => cases hn
    | succ n => simp only [recordWithin, taken, settled]
  | refused full free later ih =>
    cases n with
    | zero => cases hn
    | succ n =>
      have hlater := ih (Nat.lt_of_succ_lt_succ hn)
      simp only [recordWithin, full, free, Bool.false_eq_true, if_false, hlater]

end Attempts

/-- What is refused after a drain, is refused because the drain has used up a script. -/
theorem Arises.scriptsLeft_lt (h : Arises s stage c) (hlock : c.lockHeld = false)
    (full : (c.drain stage.courier).engine.buffers.recordOwn event = .error event) :
    (c.drain stage.courier).scriptsLeft < c.scriptsLeft := by
  rcases (h.emptiable hlock).record_drain stage.frugal event with hless | ⟨_, b, hb⟩
  · exact hless
  · cases full.symm.trans hb

/-- The loop ends, however often the reactions to its drains fill the buffer again. -/
theorem Arises.exists_attempts (h : Arises s stage c) (hlock : c.lockHeld = false)
    (event : Event) : ∃ refusals ready b, Attempts stage.courier event c refusals ready b := by
  generalize hn : c.scriptsLeft = n
  induction n using Nat.strong_induction_on generalizing c with
  | _ n ih =>
    cases hr : c.engine.buffers.recordOwn event with
    | ok b => exact ⟨[], c, b, .accepted hr⟩
    | error back =>
      cases Buffers.eq_of_record_eq_error hr
      rcases (h.emptiable hlock).record_drain stage.frugal event with hless | ⟨_, b, hb⟩
      · have hlock' := (lockHeld_drain stage c).trans hlock
        obtain ⟨refusals, ready, b, later⟩ := ih _ (hn ▸ hless) h.drain hlock' rfl
        exact ⟨_, ready, b, .refused hr hlock later⟩
      · exact ⟨_, _, b, .refused hr hlock (.accepted hb)⟩

/-- Each refusal finds the listener with fewer scripts than the one before. -/
theorem Attempts.consumes (ha : Attempts stage.courier event c refusals ready b)
    (h : Arises s stage c) :
    refusals.Pairwise fun earlier later => later.scriptsLeft < earlier.scriptsLeft := by
  induction ha with
  | accepted => exact .nil
  | @refused c ready refusals b full free later ih =>
    have hrest := ih h.drain
    refine List.pairwise_cons.mpr ⟨?_, hrest⟩
    cases later with
    | accepted => simp
    | refused full' =>
      have hless := h.scriptsLeft_lt free full'
      obtain ⟨hfirst, _⟩ := List.pairwise_cons.mp hrest
      exact List.forall_mem_cons.mpr ⟨hless, fun r hr => Nat.lt_trans (hfirst r hr) hless⟩

/-- A script is left or was run, after all attempts. -/
theorem Attempts.scripts (ha : Attempts stage.courier event c refusals ready b) :
    ready.scriptsLeft + ready.scriptsRun = c.scriptsLeft + c.scriptsRun := by
  induction ha with
  | accepted => rfl
  | @refused c _ _ _ _ _ _ ih => exact ih.trans (scripts_drain stage c)

/-- There is one drain more, at most, than scripts are run. -/
theorem Attempts.length_le (ha : Attempts stage.courier event c refusals ready b)
    (h : Arises s stage c) : refusals.length + ready.scriptsLeft ≤ c.scriptsLeft + 1 := by
  induction ha with
  | accepted =>
    rw [List.length_nil]
    omega
  | @refused c ready refusals b full free later ih =>
    have hbound := ih h.drain
    rw [List.length_cons]
    cases later with
    | accepted taken =>
      rcases (h.emptiable free).record_drain stage.frugal event with hless | ⟨hsame, _⟩
      · rw [List.length_nil]
        omega
      · rw [List.length_nil]
        omega
    | refused full' =>
      have hless := h.scriptsLeft_lt free full'
      omega

structure GetsIn (courier : Courier) (event : Event) (c : Cache) (refusals : List Cache)
    (ready : Cache) (b : Buffers) : Prop where
  attempts : Attempts courier event c refusals ready b
  /-- The last attempt puts the event behind all that waits. The refusals before it have put nothing
  anywhere. -/
  recorded : ∀ i, b.queue i = if i = ready.engine.buffers.own then
    ready.engine.buffers.queue ready.engine.buffers.own ++ [event] else ready.engine.buffers.queue i
  returns : c.recordWrite courier event = some (ready.settled courier b)
  consumes : refusals.Pairwise fun earlier later => later.scriptsLeft < earlier.scriptsLeft
  scripts : ready.scriptsLeft + ready.scriptsRun = c.scriptsLeft + c.scriptsRun
  bounded : refusals.length + ready.scriptsLeft ≤ c.scriptsLeft + 1
  unprompted : ready.scriptsRun = c.scriptsRun → refusals.length ≤ 1

/-- Whatever fills its buffer, and whatever the listener does when it is told of evictions, a writer
that finds the lock free gets its event in, and that once: its attempts end, in one way, after at
most one drain more than reactions were run. -/
theorem write_gets_in (h : Arises s stage c) (hlock : c.lockHeld = false) (event : Event) :
    ∃ refusals ready b, GetsIn stage.courier event c refusals ready b ∧
      ∀ refusals' ready' b', Attempts stage.courier event c refusals' ready' b' →
        refusals' = refusals ∧ ready' = ready ∧ b' = b := by
  obtain ⟨refusals, ready, b, ha⟩ := h.exists_attempts hlock event
  have hbounded := ha.length_le h
  have hscripts := ha.scripts
  have hrounds : refusals.length < c.scriptsLeft + 2 := by omega
  refine ⟨refusals, ready, b, ⟨ha, Buffers.queue_record ha.taken, ha.recordWithin_eq hrounds,
    ha.consumes h, hscripts, hbounded, fun hrun => ?_⟩, fun _ _ _ => ha.unique⟩
  omega

/-- A cache for one entry, whose listener reads the resident one until the buffer is full again when
it is told of an eviction. -/
def insistent : Settings :=
  { capacity := 1, listener := some { scripts := [("b", [[.repeated 128 [.call (.get "a")]]])] } }

def brimful : Cache :=
  (perform [.call (.put "a" "1"), .hold [.call (.put "b" "2"), .repeated 127 [.call (.get "a")]]]
    insistent.empty).2

theorem write_gets_in_brimful : ∃ refusals ready b,
    GetsIn deliver ⟨.update, 0⟩ brimful (brimful :: refusals) ready b := by
  have hbuild : insistent.build = .ok insistent.empty := rfl
  have harises : Arises insistent .top brimful := arises_perform hbuild _
  have hlock : brimful.lockHeld = false := by
    rw [brimful]
    exact (upkeep_perform hbuild _).1
  obtain ⟨refusals, ready, b, hin, _⟩ := write_gets_in harises hlock ⟨.update, 0⟩
  have hfull : (brimful.engine.buffers.queue brimful.engine.buffers.own).length = 128 := by cbv
  have hroom : brimful.engine.buffers.room = 128 := harises.reachable.room.1
  generalize brimful = c at hfull hroom hin ⊢
  cases hin.attempts with
  | accepted taken =>
    obtain ⟨_, hlt, _⟩ := Buffers.record_eq_ok taken
    omega
  | refused => exact ⟨_, ready, b, hin⟩

end Cache

end BoundedCache
