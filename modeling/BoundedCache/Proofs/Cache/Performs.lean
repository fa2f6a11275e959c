import BoundedCache.Proofs.Cache.Deeds
import BoundedCache.Proofs.Cache.Drains

namespace BoundedCache

def OnLive.call (onLive : OnLive) (key : Key) (value : Value) : Call :=
  match onLive with
  | .overwrite => .put key value
  | .keep => .putIfAbsent key value

namespace Cache

variable {c c' : Cache} {courier : Courier} {call : Call} {answer : Answer Step} {event : Event}
  {P : List Op → Prop}

/-- The one write of a call: nodes and store change together, and the event is still in the hands
of the writer. -/
inductive Writes (c : Cache) (call : Call) (answer : Answer Step) : Event → Cache → Prop where
  | replace {id : NodeId} {last fresh : Held} {p : Pool}
      (gain : call.gain answer = some ⟨c.engine.pool.key id, fresh.value⟩)
      (loss : call.loss answer = some ⟨c.engine.pool.key id, last.value⟩)
      (weighed : c.weigher fresh.value = .ok fresh.weight)
      (pool : c.engine.pool.Rewrites p id last (some fresh)) :
      Writes c call answer ⟨.update, id⟩
        (count { c with engine := { c.engine with pool := p } } (call.tally answer))
  | insert {key : Key} {fresh : Held} {s : Store}
      (gain : call.gain answer = some ⟨key, fresh.value⟩)
      (loss : call.loss answer = none)
      (weighed : c.weigher fresh.value = .ok fresh.weight)
      (store : c.engine.store.insertIfAbsent key c.engine.pool.next = .ok s) :
      Writes c call answer ⟨.add, c.engine.pool.next⟩
        (count { c with engine :=
          { c.engine with pool := c.engine.pool.add key fresh, store := s } } (call.tally answer))
  | retire {id : NodeId} {last : Held} {p : Pool} {s : Store}
      (gain : call.gain answer = none)
      (loss : call.loss answer = some ⟨c.engine.pool.key id, last.value⟩)
      (pool : c.engine.pool.Rewrites p id last none)
      (store : c.engine.store.removeIfMatch (c.engine.pool.key id) id = some s) :
      Writes c call answer ⟨.remove, id⟩
        (count { c with engine := { c.engine with pool := p, store := s } } (call.tally answer))

inductive Performs (courier : Courier) (c : Cache) : Call → Answer Step → Cache → Prop where
  | idle {call : Call} {answer : Answer Step}
      (gain : call.gain answer = none) (loss : call.loss answer = none)
      (idles : call.idles answer = true) :
      Performs courier c call answer (c.count (call.tally answer))
  | reads {call : Call} {answer : Answer Step} {id : NodeId} {last : Held}
      (gain : call.gain answer = none) (loss : call.loss answer = none)
      (alive : c.engine.pool.held id = some last) (touches : call.touches answer = true) :
      Performs courier c call answer ((c.count (call.tally answer)).recordRead id)
  | writes {call : Call} {answer : Answer Step} {event : Event} {next c' : Cache}
      (write : c.Writes call answer event next)
      (record : next.recordWrite courier event = some c') : Performs courier c call answer c'
  | stuck {call : Call} {answer : Answer Step} {event : Event} {next : Cache}
      (write : c.Writes call answer event next)
      (record : next.recordWrite courier event = none) : Performs courier c call .blocked next
  | waits {call : Call} (lock : c.lockHeld = true) (locks : call.locks = true) :
      Performs courier c call .blocked c
  | setCapacity {capacity : Nat} (lock : c.lockHeld = false) :
      Performs courier c (.setCapacity capacity) .done ({ c with capacity }.drain courier)
  | cleanUp (lock : c.lockHeld = false) : Performs courier c .cleanUp .done (c.drain courier)
  | clear (lock : c.lockHeld = false) :
      Performs courier c .clear (.count c.cleared.1) (courier c.cleared.2).2

theorem Writes.moves (h : c.Writes call answer event c') :
    call.gain answer ≠ none ∨ call.loss answer ≠ none := by
  cases h with
  | replace hgain | insert hgain => exact .inl (by simp [hgain])
  | retire _ hloss => exact .inr (by simp [hloss])

theorem Writes.counters_eq (h : c.Writes call answer event c') :
    c'.counters = call.tally answer c.counters := by
  cases h <;> rfl

theorem Writes.relay_eq (h : c.Writes call answer event c') : c'.relay = c.relay := by
  cases h <;> rfl

/-- The event of a write is still to be recorded. -/
theorem Writes.unrecorded (h : c.Writes call answer event c') :
    c'.engine.buffers = c.engine.buffers ∧ c'.drains = c.drains := by
  cases h <;> exact ⟨rfl, rfl⟩

theorem Writes.evolves (h : c.Writes call answer event c') : c.Evolves c' := by
  cases h with
  | replace _ _ _ hp =>
    refine Evolves.trans ?_ (.count _ _)
    exact .engineStep (.write hp.grows) (fun h => h.replace hp)
  | insert _ _ _ hs =>
    refine Evolves.trans ?_ (.count _ _)
    exact .engineStep ⟨Pool.grows_add _ _ _, fun h => h.add hs _, rfl, rfl⟩
      (fun h => h.insert hs)
  | retire _ _ hp hs =>
    refine Evolves.trans ?_ (.count _ _)
    exact .engineStep ⟨hp.grows, fun h => (h.removeIfMatch hs).grows hp.grows, rfl, rfl⟩
      (fun h => h.retire hp hs)

theorem Performs.evolves (h : c.Performs courier call answer c') (hc : courier.Steady P)
    (hp : c.Proper P) : c.Evolves c' := by
  cases h with
  | idle => exact .count c _
  | reads => exact (Evolves.count c _).trans (.recordRead _ _)
  | writes hw hr => exact hw.evolves.trans (.recordWrite hr hc (hw.evolves.proper hp))
  | stuck hw => exact hw.evolves
  | waits => exact .refl c
  | setCapacity => exact (Evolves.recap c _).trans (.drain hc ((Evolves.recap c _).proper hp))
  | cleanUp => exact .drain hc hp
  | clear => exact (Evolves.cleared c).trans (hc _ ((Evolves.cleared c).proper hp))

end Cache

open Cache

variable {c : Cache} {call : Call}

/-- What a call does once it has looked at nodes and store. -/
inductive Intent where
  | idle (answer : Answer Step)
  | look (view : Cache → Answer Step)
  | read (answer : Answer Step) (node : NodeId)
  | write (answer : Answer Step) (event : Event) (pool : Pool) (store : Store)
  | resize (capacity : Nat)
  | tidy
  | empty

/-- Calls that tell of more than nodes and store. -/
def Call.looks : Call → Bool
  | .weightedSize | .capacity | .check | .metrics | .describe => true
  | _ => false

namespace Intent

def written (call : Call) (answer : Answer Step) (pool : Pool) (store : Store) (c : Cache) : Cache :=
  count { c with engine := { c.engine with pool, store } } (call.tally answer)

def run (courier : Courier) (call : Call) (i : Intent) (c : Cache) : Answer Step × Cache :=
  match i with
  | .idle answer => (answer, c.count (call.tally answer))
  | .look view => (view c, c)
  | .read answer id => (answer, (c.count (call.tally answer)).recordRead id)
  | .write answer event pool store =>
    let next := written call answer pool store c
    match next.recordWrite courier event with
    | some c => (answer, c)
    | none => (.blocked, next)
  | .resize capacity =>
    if c.lockHeld then (.blocked, c) else (.done, { c with capacity }.drain courier)
  | .tidy => if c.lockHeld then (.blocked, c) else (.done, c.drain courier)
  | .empty =>
    if c.lockHeld then (.blocked, c) else (.count c.cleared.1, (courier c.cleared.2).2)

inductive Suits (c : Cache) : Call → Intent → Prop where
  | idle {call : Call} {answer : Answer Step} (gain : call.gain answer = none)
      (loss : call.loss answer = none) (idles : call.idles answer = true) :
      Suits c call (.idle answer)
  | look {call : Call} (looks : call.looks = true) (view : Cache → Answer Step) :
      Suits c call (.look view)
  | read {call : Call} {answer : Answer Step} {id : NodeId} {last : Held}
      (gain : call.gain answer = none) (loss : call.loss answer = none)
      (alive : c.engine.pool.held id = some last) (touches : call.touches answer = true) :
      Suits c call (.read answer id)
  | write {call : Call} {answer : Answer Step} {event : Event} {pool : Pool} {store : Store}
      (write : c.Writes call answer event (written call answer pool store c)) :
      Suits c call (.write answer event pool store)
  | resize (capacity : Nat) : Suits c (.setCapacity capacity) (.resize capacity)
  | tidy : Suits c .cleanUp .tidy
  | empty : Suits c .clear .empty

theorem Suits.performs {i : Intent} (h : i.Suits c call) (courier : Courier) :
    c.Performs courier call (i.run courier call c).1 (i.run courier call c).2 := by
  cases h with
  | idle hgain hloss hidles => exact .idle hgain hloss hidles
  | look hlooks view =>
    have hnone : call.gain (view c) = none ∧ call.loss (view c) = none ∧
        call.idles (view c) = true ∧ call.tally (view c) = id := by
      cases call <;> first | exact ⟨rfl, rfl, rfl, rfl⟩ | cases hlooks
    have hidle : c.Performs courier call (view c) (c.count (call.tally (view c))) :=
      .idle hnone.1 hnone.2.1 hnone.2.2.1
    rw [hnone.2.2.2] at hidle
    exact hidle
  | read hgain hloss hl htouches => exact .reads hgain hloss hl htouches
  | @write _ answer event pool store hw =>
    unfold run
    dsimp only
    cases hr : (written call answer pool store c).recordWrite courier event with
    | some c' => exact .writes hw hr
    | none => exact .stuck hw hr
  | resize capacity =>
    by_cases hlock : c.lockHeld = true
    · simp only [run, if_pos hlock]
      exact .waits hlock rfl
    · simp only [run, if_neg hlock]
      exact .setCapacity (Bool.eq_false_iff.mpr hlock)
  | tidy =>
    by_cases hlock : c.lockHeld = true
    · simp only [run, if_pos hlock]
      exact .waits hlock rfl
    · simp only [run, if_neg hlock]
      exact .cleanUp (Bool.eq_false_iff.mpr hlock)
  | empty =>
    by_cases hlock : c.lockHeld = true
    · simp only [run, if_pos hlock]
      exact .waits hlock rfl
    · simp only [run, if_neg hlock]
      exact .clear (Bool.eq_false_iff.mpr hlock)

end Intent

namespace Cache

/-- Two caches that a call cannot tell apart when it decides what to do. -/
structure Alike (c c' : Cache) : Prop where
  pool : c'.engine.pool = c.engine.pool
  store : c'.engine.store = c.engine.store
  weigher : c'.weigher = c.weigher

def Decides (c : Cache) (call : Call) (f : Courier → Cache → Answer Step × Cache) : Prop :=
  ∃ i : Intent, i.Suits c call ∧
    ∀ (courier : Courier) (c' : Cache), c.Alike c' → f courier c' = i.run courier call c'

theorem Alike.refl (c : Cache) : c.Alike c := ⟨rfl, rfl, rfl⟩

theorem Decides.performs {f : Courier → Cache → Answer Step × Cache} (h : c.Decides call f)
    (courier : Courier) : c.Performs courier call (f courier c).1 (f courier c).2 := by
  obtain ⟨i, hi, hf⟩ := h
  rw [hf courier c (.refl c)]
  exact hi.performs courier

/-- A write ends with its event, or waits. -/
theorem answering_finishWrite {α : Type} (f : α → Answer Step) (event : Event) (result : α)
    (courier : Courier) (p : Pool) (s : Store) (c : Cache) :
    Reply.answering f ((Intent.written call (f result) p s c).finishWrite courier event result) =
      (Intent.write (f result) event p s).run courier call c := by
  unfold finishWrite Intent.run
  dsimp only
  cases (Intent.written call (f result) p s c).recordWrite courier event with
  | some c' => rfl
  | none => rfl

end Cache

/-- What a call has seen before its gap is still good. -/
inductive Suspended.Fits (c : Cache) : Call → Suspended → Prop where
  | insertion (onLive : OnLive) (key : Key) (fresh : Held)
      (weighed : c.weigher fresh.value = .ok fresh.weight) :
      Fits c (onLive.call key fresh.value) (.insertion ⟨onLive, key, fresh, .unmapped⟩)
  | removal (expected : Value) {id : NodeId} {seen : Sight} (saw : c.engine.pool.Saw id seen) :
      Fits c (.removeIf (c.engine.pool.key id) expected)
        (.conditional ⟨c.engine.pool.key id, id, seen, expected, none⟩)
  | replacement (expected : Value) {fresh : Held} {id : NodeId} {seen : Sight}
      (weighed : c.weigher fresh.value = .ok fresh.weight) (saw : c.engine.pool.Saw id seen) :
      Fits c (.replaceIf (c.engine.pool.key id) expected fresh.value)
        (.conditional ⟨c.engine.pool.key id, id, seen, expected, some fresh⟩)

inductive Cache.Begins (c : Cache) (call : Call)
    (f : Courier → Cache → Progress Suspended (Answer Step)) : Prop where
  | settled (i : Intent) (suits : i.Suits c call)
      (run : ∀ courier c', c.Alike c' → f courier c' = Answer.settled (i.run courier call c'))
  | gap (s : Suspended) (fits : s.Fits c call)
      (run : ∀ courier c', c.Alike c' → f courier c' = .gap s)

theorem Cache.Evolves.fits {c c' : Cache} {call : Call} {s : Suspended} (h : c.Evolves c')
    (hs : s.Fits c call) : s.Fits c' call := by
  cases hs with
  | insertion onLive key fresh hw => exact .insertion onLive key fresh (h.weigher ▸ hw)
  | removal expected saw =>
    obtain ⟨n, hn, _⟩ := id saw
    rw [← h.engine.pool.key_eq (Pool.lt_next_of_node? hn)]
    exact .removal expected (saw.grows h.engine.pool)
  | replacement expected hw saw =>
    obtain ⟨n, hn, _⟩ := id saw
    rw [← h.engine.pool.key_eq (Pool.lt_next_of_node? hn)]
    exact .replacement expected (h.weigher ▸ hw) (saw.grows h.engine.pool)

end BoundedCache
