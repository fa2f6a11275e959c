import BoundedCache.Cache.Dispatch
import BoundedCache.Proofs.Cache.Performs

namespace BoundedCache

/-- A call that nothing comes between answers what it would have answered without its gap. -/
theorem Progress.finish_answering {σ α : Type} {courier : Courier} {f : α → Answer Step}
    {g : σ → Suspended} {resume : σ → Cache → Reply α × Cache}
    (h : ∀ rest c, (g rest).resume courier c = Reply.answering f (resume rest c))
    (p : Progress σ (Reply α)) (c : Cache) :
    (p.answering f g).finish (Suspended.resume courier) c =
      Reply.answering f (p.finish resume c) := by
  cases p with
  | settled reply next => rfl
  | gap rest => exact h rest c

namespace Cache

variable {c c' : Cache} {call : Call} {key : Key} {value expected : Value} {fresh last : Held}
  {id : NodeId}

/-- A clean-up that finds the lock free drains. -/
theorem run_cleanUp (courier : Courier) (hlock : c.lockHeld = false) :
    Call.run courier .cleanUp c = (.done, c.drain courier) := by
  simp [Call.run, Call.start, Answer.settled, Reply.answering, Reply.answer, Progress.finish,
    cleanUp, hlock]

/-- A clearing that finds the lock free clears before it delivers. -/
theorem run_clear (courier : Courier) (hlock : c.lockHeld = false) :
    Call.run courier .clear c = (.count c.cleared.1, (courier c.cleared.2).2) := by
  simp [Call.run, Call.start, Answer.settled, Reply.answering, Reply.answer, Progress.finish, clear,
    hlock]

theorem weigh_eq_ok (h : c.weigh value = .ok fresh) :
    fresh.value = value ∧ c.weigher fresh.value = .ok fresh.weight := by
  unfold weigh at h
  cases hw : c.weigher value with
  | ok weight =>
    simp only [hw, Except.ok.injEq] at h
    subst h
    exact ⟨rfl, hw⟩
  | error message => simp [hw] at h

/-- What a look at a key finds is mapped there. -/
theorem sight_eq_live {id : NodeId} {seen : Sight} (h : c.sight key = .live id seen) :
    c.engine.store.get? key = some id ∧ c.engine.pool.load id = some seen := by
  unfold sight at h
  cases hk : c.engine.store.get? key with
  | none => simp [hk] at h
  | some other =>
    cases hl : c.engine.pool.load other with
    | none => simp [hk, hl] at h
    | some sight =>
      simp only [hk, hl, Sighting.live.injEq] at h
      exact ⟨by rw [h.1], by rw [← h.1, hl, h.2]⟩

/-- No look finds a retired node. -/
theorem sight_ne_retired (hp : c.engine.Paired) (id : NodeId) : c.sight key ≠ .retired id := by
  intro h
  obtain ⟨last, hl⟩ := hp.alive (get?_of_sight_retired h)
  unfold sight at h
  rw [get?_of_sight_retired h] at h
  cases hload : c.engine.pool.load id with
  | none =>
    rw [Pool.load_eq_none_iff, hl] at hload
    cases hload
  | some seen => simp [hload] at h

namespace Alike

theorem sight_eq (h : c.Alike c') (key : Key) : c'.sight key = c.sight key := by
  simp only [sight, h.store, h.pool]

theorem lookup_eq (h : c.Alike c') (key : Key) : c'.lookup key = c.lookup key := by
  simp only [lookup, h.sight_eq]

theorem weigh_eq (h : c.Alike c') (value : Value) : c'.weigh value = c.weigh value := by
  simp only [weigh, h.weigher]

end Alike

/-- The value of a mapped node is replaced by a write. -/
theorem decides_overwrite (call : Call) (hp : c.engine.Paired)
    (hk : c.engine.store.get? key = some id) (hl : c.engine.pool.held id = some last)
    (hw : c.weigher fresh.value = .ok fresh.weight)
    (hgain : call.gain (.value (some last.value)) = some ⟨key, fresh.value⟩)
    (hloss : call.loss (.value (some last.value)) = some ⟨key, last.value⟩)
    (htally : call.tally (.value (some last.value)) = fun n => { n with updates := n.updates + 1 }) :
    ∃ i : Intent, i.Suits c call ∧ ∀ courier c', c.Alike c' →
      (c'.overwrite courier id fresh).map (Reply.answering .value) =
        some (i.run courier call c') := by
  obtain ⟨p, hr⟩ := Pool.exists_replace hl fresh
  rw [← hp.store.keyed key id hk] at hgain hloss
  have hwrites := Writes.replace hgain hloss hw (Pool.rewrites_of_replace hr)
  refine ⟨.write _ _ p c.engine.store, .write hwrites, fun courier c' h => ?_⟩
  have hwritten : Intent.written call (.value (some last.value)) p c.engine.store c' =
      count { c' with engine := { c'.engine with pool := p } }
        (fun n => { n with updates := n.updates + 1 }) := by
    rw [Intent.written, htally, ← h.store]
  rw [← answering_finishWrite, hwritten, overwrite, h.pool, hr]
  rfl

/-- An insertion with a weighed value overwrites or reads a live node, and else maps a new one. -/
theorem decides_insertNow (hp : c.engine.Paired) (onLive : OnLive) (key : Key)
    (hw : c.weigher fresh.value = .ok fresh.weight) :
    c.Decides (onLive.call key fresh.value)
      fun courier c => Reply.answering .value (c.insertNow courier onLive key fresh) := by
  cases hs : c.sight key with
  | retired id => exact absurd hs (sight_ne_retired hp id)
  | live id seen =>
    obtain ⟨hk, hload⟩ := sight_eq_live hs
    have hl := Pool.held_of_load hload
    cases onLive with
    | overwrite =>
      obtain ⟨i, hi, hrun⟩ :=
        decides_overwrite (.put key fresh.value) hp hk hl hw rfl rfl rfl
      refine ⟨i, hi, fun courier c' h => ?_⟩
      obtain ⟨r, hr, hanswer⟩ := Option.map_eq_some_iff.mp (hrun courier c' h)
      simp only [insertNow, seek, h.sight_eq, hs, meetLive, hr, Progress.finish, Option.getD_some]
      exact hanswer
    | keep =>
      refine ⟨.read (.value (some seen.held.value)) id, .read rfl rfl hl rfl, fun courier c' h => ?_⟩
      simp only [insertNow, seek, h.sight_eq, hs, meetLive, Progress.finish, Option.getD_some]
      rfl
  | unmapped =>
    have ht := Store.insertIfAbsent_of_unmapped (sight_eq_unmapped_iff.mp hs) c.engine.pool.next
    have hgain : (onLive.call key fresh.value).gain (.value none) = some ⟨key, fresh.value⟩ := by
      cases onLive <;> rfl
    have hloss : (onLive.call key fresh.value).loss (.value none) = none := by
      cases onLive <;> rfl
    have htally : (onLive.call key fresh.value).tally (.value none) =
        fun n => { n with inserts := n.inserts + 1 } := by
      cases onLive <;> rfl
    refine ⟨_, .write (.insert hgain hloss hw ht), fun courier c' h => ?_⟩
    rw [← answering_finishWrite, Intent.written, htally]
    simp only [insertNow, seek, h.sight_eq, hs, Progress.finish, occupy, mapFresh?, h.store, h.pool,
      ht, Except.toOption, Option.map_some, Option.getD_some]

/-- An insertion does after its gap what it would do if it began there, as long as a node that it
saw retired is retired: either the mapping is still the one it saw, or it looks again. -/
theorem resumeInsert_eq {i : Insertion} (courier : Courier)
    (h : ∀ id, i.vacancy = .retired id → c.engine.pool.held id = none) :
    c.resumeInsert courier i = c.insertNow courier i.onLive i.key i.fresh := by
  obtain ⟨onLive, key, fresh, vacancy⟩ := i
  unfold resumeInsert
  cases ho : c.occupy courier ⟨onLive, key, fresh, vacancy⟩ with
  | none => rfl
  | some r =>
    obtain ⟨next, hm, _⟩ := Option.map_eq_some_iff.mp ho
    have hsight : c.seek courier onLive key fresh = .gap ⟨onLive, key, fresh, vacancy⟩ := by
      obtain ⟨s, hs, _⟩ := Option.map_eq_some_iff.mp hm
      cases vacancy with
      | unmapped =>
        have hk : c.engine.store.get? key = none := by
          cases hk : c.engine.store.get? key with
          | none => rfl
          | some id => simp [Store.insertIfAbsent, hk, Except.toOption] at hs
        simp only [seek, sight_eq_unmapped_iff.mpr hk]
      | retired id =>
        have hk := Store.get?_of_replaceIfMatch hs
        have hload : c.engine.pool.load id = none := Pool.load_eq_none_iff.mpr (h id rfl)
        simp only [seek, sight, hk, hload]
    simp only [insertNow, hsight, Progress.finish, ho, Option.getD_some]

/-- A removal in the gap of which anything may have run retires the node if it has the expected
value, and else does nothing. -/
theorem decides_resumeSwap_remove (hp : c.engine.Paired) {seen : Sight}
    (hs : c.engine.pool.Saw id seen) :
    c.Decides (.removeIf (c.engine.pool.key id) expected) fun courier c' =>
      Reply.answering .flag
        (c'.resumeSwap courier ⟨c.engine.pool.key id, id, seen, expected, none⟩) := by
  cases hr : c.engine.pool.swapSeen id seen (· == expected) none with
  | error refusal =>
    refine ⟨.idle (.flag false), .idle rfl rfl rfl, fun courier c' h => ?_⟩
    simp only [resumeSwap, h.pool, hr]
    rfl
  | ok result =>
    obtain ⟨last, p⟩ := result
    obtain ⟨hq, ha⟩ := Pool.rewrites_of_swapSeen hs hr
    have hlast : last.value = expected := by simpa using ha
    obtain ⟨s, ht⟩ := hp.exists_removeIfMatch hq.was
    have hloss : Call.loss (.removeIf (c.engine.pool.key id) expected) (.flag true) =
        some ⟨c.engine.pool.key id, last.value⟩ := by
      rw [hlast]
      rfl
    refine ⟨_, .write (.retire rfl hloss hq ht), fun courier c' h => ?_⟩
    rw [← answering_finishWrite]
    simp only [resumeSwap, h.pool, hr, h.store, ht, Option.getD_some]
    rfl

theorem decides_resumeSwap_replace {seen : Sight} (hw : c.weigher fresh.value = .ok fresh.weight)
    (hs : c.engine.pool.Saw id seen) :
    c.Decides (.replaceIf (c.engine.pool.key id) expected fresh.value) fun courier c' =>
      Reply.answering .flag
        (c'.resumeSwap courier ⟨c.engine.pool.key id, id, seen, expected, some fresh⟩) := by
  cases hr : c.engine.pool.swapSeen id seen (· == expected) (some fresh) with
  | error refusal =>
    refine ⟨.idle (.flag false), .idle rfl rfl rfl, fun courier c' h => ?_⟩
    simp only [resumeSwap, h.pool, hr]
    rfl
  | ok result =>
    obtain ⟨last, p⟩ := result
    obtain ⟨hq, ha⟩ := Pool.rewrites_of_swapSeen hs hr
    have hlast : last.value = expected := by simpa using ha
    have hloss : Call.loss (.replaceIf (c.engine.pool.key id) expected fresh.value) (.flag true) =
        some ⟨c.engine.pool.key id, last.value⟩ := by
      rw [hlast]
      rfl
    have hwrites := Writes.replace rfl hloss hw hq
    refine ⟨.write _ _ p c.engine.store, .write hwrites, fun courier c' h => ?_⟩
    rw [← answering_finishWrite]
    simp only [resumeSwap, h.pool, hr, ← h.store]
    rfl

theorem decides_remove (hp : c.engine.Paired) (key : Key) :
    c.Decides (.remove key) fun courier c => Reply.answering .value (c.remove courier key) := by
  cases hr : c.engine.store.remove key with
  | none =>
    refine ⟨.idle (.value none), .idle rfl rfl rfl, fun courier c' h => ?_⟩
    simp only [remove, h.store, hr]
    rfl
  | some result =>
    obtain ⟨id, s⟩ := result
    have ht := Store.remove_eq_some_iff.mp hr
    have hk := Store.get?_of_removeIfMatch ht
    obtain ⟨last, hl⟩ := hp.alive hk
    obtain ⟨p, hretire⟩ := Pool.exists_retire hl
    have hkey := hp.store.keyed key id hk
    have hloss : Call.loss (.remove key) (.value (some last.value)) =
        some ⟨c.engine.pool.key id, last.value⟩ := by
      rw [hkey]
      rfl
    rw [← hkey] at ht
    refine ⟨_, .write (.retire rfl hloss (Pool.rewrites_of_retire hretire) ht),
      fun courier c' h => ?_⟩
    rw [← answering_finishWrite]
    simp only [remove, h.store, hr, h.pool, hretire]
    rfl

theorem decides_replace (hp : c.engine.Paired) (key : Key) (value : Value) :
    c.Decides (.replace key value)
      fun courier c => Reply.answering .value (c.replace courier key value) := by
  cases hk : c.engine.store.get? key with
  | none =>
    refine ⟨.idle (.value none), .idle rfl rfl rfl, fun courier c' h => ?_⟩
    simp only [replace, h.store, hk]
    rfl
  | some id =>
    cases hw : c.weigh value with
    | error message =>
      refine ⟨.idle (.refused message), .idle rfl rfl rfl, fun courier c' h => ?_⟩
      simp only [replace, h.store, hk, h.weigh_eq, hw]
      rfl
    | ok fresh =>
      obtain ⟨rfl, hweight⟩ := weigh_eq_ok hw
      obtain ⟨last, hl⟩ := hp.alive hk
      obtain ⟨i, hi, hrun⟩ :=
        decides_overwrite (.replace key fresh.value) hp hk hl hweight rfl rfl rfl
      refine ⟨i, hi, fun courier c' h => ?_⟩
      obtain ⟨r, hr, hanswer⟩ := Option.map_eq_some_iff.mp (hrun courier c' h)
      simp only [replace, h.store, hk, h.weigh_eq, hw, hr, Option.getD_some]
      exact hanswer

theorem decides_get (key : Key) (c : Cache) :
    c.Decides (.get key) fun _ c => (.value (c.get key).1, (c.get key).2) := by
  cases hs : c.sight key with
  | unmapped | retired =>
    refine ⟨.idle (.value none), .idle rfl rfl rfl, fun courier c' h => ?_⟩
    simp only [get, lookup, h.sight_eq, hs]
    rfl
  | live id seen =>
    refine ⟨.read (.value (some seen.held.value)) id, .read rfl rfl (Pool.held_of_load (sight_eq_live hs).2) rfl,
      fun courier c' h => ?_⟩
    simp only [get, lookup, h.sight_eq, hs]
    rfl

theorem decides_setCapacity (capacity : Nat) (c : Cache) :
    c.Decides (.setCapacity capacity)
      fun courier c => Reply.answering Answer.ofCheck (c.setCapacity courier capacity) := by
  by_cases hzero : capacity = 0
  · refine ⟨.idle (.failed .invalidCapacity), .idle rfl rfl rfl, fun courier c' _ => ?_⟩
    simp only [setCapacity, if_pos hzero]
    rfl
  · refine ⟨.resize capacity, .resize capacity, fun courier c' _ => ?_⟩
    simp only [setCapacity, if_neg hzero, Intent.run]
    split <;> rfl

theorem begins_insert (hp : c.engine.Paired) (onLive : OnLive) (key : Key) (value : Value) :
    c.Begins (onLive.call key value)
      fun courier c => (c.startInsert courier onLive key value).answering .value .insertion := by
  cases hw : c.weigh value with
  | error message =>
    refine .settled (.idle (.refused message))
      (.idle (by cases onLive <;> rfl) (by cases onLive <;> rfl) (by cases onLive <;> rfl)) fun courier c' h => ?_
    simp only [startInsert, h.weigh_eq, hw]
    cases onLive <;> rfl
  | ok fresh =>
    obtain ⟨rfl, hweight⟩ := weigh_eq_ok hw
    cases hs : c.sight key with
    | retired id => exact absurd hs (sight_ne_retired hp id)
    | unmapped =>
      refine .gap _ (.insertion onLive key fresh hweight) fun courier c' h => ?_
      simp only [startInsert, h.weigh_eq, hw, seek, h.sight_eq, hs]
      rfl
    | live id seen =>
      obtain ⟨i, hi, hrun⟩ := decides_insertNow hp onLive key hweight
      refine .settled i hi fun courier c' h => ?_
      rw [← hrun courier c' h]
      simp only [startInsert, h.weigh_eq, hw, insertNow, seek, h.sight_eq, hs]
      rfl

theorem begins_removeIf (hp : c.engine.Paired) (key : Key) (expected : Value) :
    c.Begins (.removeIf key expected)
      fun _ c => (c.startRemoveIf key expected).answering .flag .conditional := by
  have hidle : (Intent.idle (.flag false)).Suits c (.removeIf key expected) := .idle rfl rfl rfl
  cases hk : c.engine.store.get? key with
  | none =>
    refine .settled _ hidle fun courier c' h => ?_
    simp only [startRemoveIf, h.store, hk]
    rfl
  | some id =>
    cases hl : c.engine.pool.load id with
    | none =>
      refine .settled _ hidle fun courier c' h => ?_
      simp only [startRemoveIf, h.store, hk, startSwap, h.pool, hl]
      rfl
    | some seen =>
      cases hp.store.keyed key id hk
      refine .gap _ (.removal expected (Pool.saw_of_load hl)) fun courier c' h => ?_
      simp only [startRemoveIf, h.store, hk, startSwap, h.pool, hl]
      rfl

theorem begins_replaceIf (hp : c.engine.Paired) (key : Key) (expected value : Value) :
    c.Begins (.replaceIf key expected value)
      fun _ c => (c.startReplaceIf key expected value).answering .flag .conditional := by
  have hidle : (Intent.idle (.flag false)).Suits c (.replaceIf key expected value) := .idle rfl rfl rfl
  cases hk : c.engine.store.get? key with
  | none =>
    refine .settled _ hidle fun courier c' h => ?_
    simp only [startReplaceIf, h.store, hk]
    rfl
  | some id =>
    cases hw : c.weigh value with
    | error message =>
      refine .settled (.idle (.refused message)) (.idle rfl rfl rfl) fun courier c' h => ?_
      simp only [startReplaceIf, h.store, hk, h.weigh_eq, hw]
      rfl
    | ok fresh =>
      obtain ⟨rfl, hweight⟩ := weigh_eq_ok hw
      cases hl : c.engine.pool.load id with
      | none =>
        refine .settled _ hidle fun courier c' h => ?_
        simp only [startReplaceIf, h.store, hk, h.weigh_eq, hw, startSwap, h.pool, hl]
        rfl
      | some seen =>
        cases hp.store.keyed key id hk
        refine .gap _ (.replacement expected hweight (Pool.saw_of_load hl)) fun courier c' h => ?_
        simp only [startReplaceIf, h.store, hk, h.weigh_eq, hw, startSwap, h.pool, hl]
        rfl

/-- A call without a gap begins with all that it does. -/
theorem Decides.begins {f : Courier → Cache → Answer Step × Cache} (h : c.Decides call f) :
    c.Begins call fun courier c => Answer.settled (f courier c) := by
  obtain ⟨i, hi, hrun⟩ := h
  exact .settled i hi fun courier c' ha => by rw [hrun courier c' ha]

/-- A call that answers from nodes and store changes nothing. -/
theorem decides_answer {answer : Cache → Answer Step} (hgain : call.gain (answer c) = none)
    (hloss : call.loss (answer c) = none) (hidles : call.idles (answer c) = true)
    (htally : call.tally (answer c) = fun n => n)
    (hsame : ∀ c', c.Alike c' → answer c' = answer c) :
    c.Decides call fun _ c => (answer c, c) := by
  refine ⟨.idle (answer c), .idle hgain hloss hidles, fun courier c' h => ?_⟩
  simp only [Intent.run, htally, hsame c' h]
  rfl

/-- So does a call that tells of the rest of a cache. -/
theorem decides_look (hlooks : call.looks = true) (view : Cache → Answer Step) :
    c.Decides call fun _ c => (view c, c) :=
  ⟨.look view, .look hlooks view, fun _ _ _ => rfl⟩

end Cache

open Cache

variable {c c' : Cache} {courier : Courier} {call : Call} {answer : Answer Step} {s : Suspended}

/-- What a call does up to its gap is decided by nodes, store and weigher. -/
theorem Call.start_begins (call : Call) (hp : c.engine.Paired) :
    c.Begins call fun courier c => call.start courier c := by
  cases call with
  | put key value => exact begins_insert hp .overwrite key value
  | putIfAbsent key value => exact begins_insert hp .keep key value
  | removeIf key expected => exact begins_removeIf hp key expected
  | replaceIf key expected value => exact begins_replaceIf hp key expected value
  | get key => exact (decides_get key c).begins
  | replace key value => exact (decides_replace hp key value).begins
  | remove key => exact (decides_remove hp key).begins
  | setCapacity capacity => exact (decides_setCapacity capacity c).begins
  | clear =>
    refine .settled .empty .empty fun courier c' _ => ?_
    simp only [start, Cache.clear, Intent.run]
    split <;> rfl
  | cleanUp =>
    refine .settled .tidy .tidy fun courier c' _ => ?_
    simp only [start, Cache.cleanUp, Intent.run]
    split <;> rfl
  | getQuietly key =>
    have hsame (c' : Cache) (h : c.Alike c') : Answer.value (c'.getQuietly key) =
        (.value (c.getQuietly key) : Answer Step) := by
      simp only [Cache.getQuietly, h.lookup_eq]
    exact (decides_answer rfl rfl rfl rfl hsame).begins
  | contains key =>
    have hsame (c' : Cache) (h : c.Alike c') : Answer.flag (c'.contains key) =
        (.flag (c.contains key) : Answer Step) := by
      simp only [Cache.contains, h.lookup_eq]
    exact (decides_answer rfl rfl rfl rfl hsame).begins
  | length =>
    have hsame (c' : Cache) (h : c.Alike c') : Answer.count c'.length =
        (.count c.length : Answer Step) := by
      simp only [Cache.length, h.store]
    exact (decides_answer rfl rfl rfl rfl hsame).begins
  | isEmpty =>
    have hsame (c' : Cache) (h : c.Alike c') : Answer.flag c'.isEmpty =
        (.flag c.isEmpty : Answer Step) := by
      simp only [Cache.isEmpty, Cache.length, h.store]
    exact (decides_answer rfl rfl rfl rfl hsame).begins
  | weightedSize | capacity | check | metrics | describe => exact (decides_look rfl _).begins

/-- What a call does after its gap is decided by nodes, store and weigher. -/
theorem Suspended.resume_decides (hs : s.Fits c call) (hp : c.engine.Paired) :
    c.Decides call fun courier c => s.resume courier c := by
  cases hs with
  | insertion onLive key fresh hw =>
    obtain ⟨i, hi, hrun⟩ := decides_insertNow hp onLive key hw
    refine ⟨i, hi, fun courier c' h => ?_⟩
    rw [← hrun courier c' h]
    exact congrArg (Reply.answering .value) (resumeInsert_eq courier (by simp))
  | removal expected saw => exact decides_resumeSwap_remove hp saw
  | replacement expected hw saw => exact decides_resumeSwap_replace hw saw

/-- What a call does that nothing comes between is decided by nodes, store and weigher. -/
theorem Call.run_decides (call : Call) (hp : c.engine.Paired) :
    c.Decides call fun courier c => call.run courier c := by
  rcases call.start_begins hp with ⟨i, hi, hrun⟩ | ⟨s, hs, hstart⟩
  · refine ⟨i, hi, fun courier c' h => ?_⟩
    simp only [Call.run, hrun courier c' h]
    rfl
  · obtain ⟨i, hi, hrun⟩ := Suspended.resume_decides hs hp
    refine ⟨i, hi, fun courier c' h => ?_⟩
    simp only [Call.run, hstart courier c' h]
    exact hrun courier c' h

/-- A call up to its gap: it has performed, or what it has seen is good. -/
theorem Call.start_spec (courier : Courier) (call : Call) (hp : c.engine.Paired) :
    match call.start courier c with
    | .settled answer c' => Performs courier c call answer c'
    | .gap s => s.Fits c call := by
  rcases call.start_begins hp with ⟨i, hi, hrun⟩ | ⟨s, hs, hstart⟩
  · simp only [hrun courier c (.refl c)]
    exact hi.performs courier
  · simp only [hstart courier c (.refl c)]
    exact hs

/-- The rest of a call performs the call. -/
theorem Suspended.resume_performs (courier : Courier) (hs : s.Fits c call) (hp : c.engine.Paired) :
    Performs courier c call (s.resume courier c).1 (s.resume courier c).2 :=
  (Suspended.resume_decides hs hp).performs courier

/-- A call that nothing comes between performs. -/
theorem Call.run_performs (courier : Courier) (call : Call) (hp : c.engine.Paired) :
    Performs courier c call (call.run courier c).1 (call.run courier c).2 :=
  (call.run_decides hp).performs courier

end BoundedCache
