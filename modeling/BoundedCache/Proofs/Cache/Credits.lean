import BoundedCache.Proofs.Cache.Fidelity
import BoundedCache.Proofs.Cache.Moves
import BoundedCache.Proofs.Cache.Rounds
import BoundedCache.Proofs.Engine.Retired

namespace BoundedCache

/-- The key of the node that a call has retired, if it has retired one for its caller. A removal
that waits for ever for room for its event has retired its node before. -/
def Call.grave (call : Call) (answer : Answer Step) : Option Key :=
  match call, answer with
  | .remove key, .value (some _) | .remove key, .blocked => some key
  | .removeIf key _, .flag true | .removeIf key _, .blocked => some key
  | _, _ => none

def Call.cleared (call : Call) (answer : Answer Step) : Nat :=
  match call, answer with
  | .clear, .count n => n
  | _, _ => 0

def Deed.grave (d : Deed) : Option Key :=
  match d.act, d.answer with
  | .call call, answer => call.grave answer
  | .probe (.retire key), .value (some _) => some key
  | _, _ => none

def Deed.cleared (d : Deed) : Nat :=
  match d.act with
  | .call call => call.cleared d.answer
  | _ => 0

def graves (ds : List Deed) : List Key := ds.filterMap Deed.grave

def clearings (ds : List Deed) : Nat := (ds.map Deed.cleared).sum

theorem graves_append (ds ds' : List Deed) : graves (ds ++ ds') = graves ds ++ graves ds' :=
  List.filterMap_append

theorem clearings_append (ds ds' : List Deed) :
    clearings (ds ++ ds') = clearings ds + clearings ds' := by
  rw [clearings, List.map_append, List.sum_append]
  rfl

def Call.sparing : Call → Bool
  | .remove _ | .removeIf .. | .clear => false
  | _ => true

namespace Cache

/-- What the ledger relies on: nodes are mapped under their own keys, and the reactions of the
listener report all that they do. -/
structure Legible (c : Cache) : Prop where
  sound : c.engine.store.Sound c.engine.pool
  stocked : c.Stocked (Op.allWritten · = true)

/-- Each node that was retired between two caches has one who retired it: a deed of the run or of a
reaction that is told of, a drain whose victim it was, or a clearing that counted it. -/
structure Ledger (ds : List Deed) (c c' : Cache) (told : List (Notice (List Step)))
    (vs : List Entry) (keys : List Key) : Prop where
  notices : c'.relay.notices = c.relay.notices ++ told
  victims : c'.victims = c.victims ++ vs
  evictions : c'.counters.evictions = c.counters.evictions + vs.length
  cleared : keys.length = clearings ds + clearings (told.flatMap Notice.deeds)
  graves : ∀ key, c'.engine.pool.graves.count key = c.engine.pool.graves.count key +
    (graves ds).count key + (BoundedCache.graves (told.flatMap Notice.deeds)).count key +
      (vs.map (·.key)).count key + keys.count key

def Credits (ds : List Deed) (c c' : Cache) : Prop :=
  c.Legible → c'.Legible ∧ ∃ told vs keys, Ledger ds c c' told vs keys

variable {c c' c'' : Cache} {ds ds' : List Deed} {d : Deed} {courier : Courier} {event : Event}
  {key : Key} {id : NodeId} {call : Call}

namespace Credits

theorem trans (h : Credits ds c c') (h' : Credits ds' c' c'') : Credits (ds ++ ds') c c'' := by
  intro hc
  obtain ⟨hc', told, vs, keys, hl⟩ := h hc
  obtain ⟨hc'', told', vs', keys', hl'⟩ := h' hc'
  refine ⟨hc'', told ++ told', vs ++ vs', keys ++ keys', ?_, ?_, ?_, ?_, fun key => ?_⟩
  · rw [hl'.notices, hl.notices, List.append_assoc]
  · rw [hl'.victims, hl.victims, List.append_assoc]
  · rw [hl'.evictions, hl.evictions, List.length_append, Nat.add_assoc]
  · have hfirst := hl.cleared
    have hsecond := hl'.cleared
    rw [List.length_append, List.flatMap_append, clearings_append, clearings_append]
    omega
  · have hfirst := hl.graves key
    have hsecond := hl'.graves key
    simp only [List.flatMap_append, List.map_append, graves_append, List.count_append]
    omega

/-- Changes of the engine that retire nobody. -/
theorem of_changes (he : Engine.Changes c.engine c'.engine)
    (hg : c'.engine.pool.graves = c.engine.pool.graves) (hn : c'.relay.notices = c.relay.notices)
    (hl : c'.relay.listener = c.relay.listener) (hd : c'.drains = c.drains)
    (hv : c'.counters.evictions = c.counters.evictions) : Credits [] c c' := by
  intro hc
  refine ⟨⟨(Engine.Evolves.of_changes he).store hc.sound, ?_⟩, [], [], [], ?_, ?_, hv, rfl, ?_⟩
  · unfold Stocked
    rw [hl]
    exact hc.stocked
  · rw [hn, List.append_nil]
  · rw [Cache.victims, hd, List.append_nil]
    rfl
  · intro key
    rw [hg]
    rfl

theorem change {e : Engine} (h : Engine.Change c.engine e)
    (hg : e.pool.graves = c.engine.pool.graves) : Credits [] c { c with engine := e } :=
  of_changes (.single h) hg rfl rfl rfl rfl

/-- What is neither in the engine nor logged plays no part. -/
theorem same (he : c'.engine = c.engine) (hr : c'.relay = c.relay) (hd : c'.drains = c.drains)
    (hv : c'.counters.evictions = c.counters.evictions) : Credits [] c c' :=
  of_changes (he ▸ .refl) (by rw [he]) (by rw [hr]) (by rw [hr]) hd hv

theorem refl (c : Cache) : Credits [] c c := same rfl rfl rfl rfl

/-- A deed that retires nobody does not show in the ledger. -/
theorem idle (h : Credits [] c c') (hg : d.grave = none) (hn : d.cleared = 0) :
    Credits [d] c c' := by
  intro hc
  obtain ⟨hc', told, vs, keys, hl⟩ := h hc
  have hds : clearings [d] = clearings [] ∧ graves [d] = graves [] := by
    simp [clearings, graves, hg, hn]
  refine ⟨hc', told, vs, keys, hl.notices, hl.victims, hl.evictions, ?_, fun key => ?_⟩
  · rw [hds.1]
    exact hl.cleared
  · rw [hds.2]
    exact hl.graves key

/-- Nor does a call that is of no kind to retire anybody. -/
theorem sparing (h : Credits [] c c') (hcall : call.sparing = true) (answer : Answer Step) :
    Credits [⟨.call call, answer⟩] c c' := by
  refine h.idle ?_ ?_
  · cases call <;> first | rfl | cases hcall
  · cases call <;> first | rfl | cases hcall

/-- A retirement that a deed claims. -/
theorem buries {last : Held} {p : Pool} (hq : c.engine.pool.Rewrites p id last none)
    (hg : d.grave = some (c.engine.pool.key id)) (hn : d.cleared = 0) :
    Credits [d] c { c with engine := { c.engine with pool := p } } := by
  intro hc
  refine ⟨⟨hc.sound.grows hq.grows, hc.stocked⟩, [], [], [], ?_, ?_, rfl, ?_, fun key => ?_⟩
  · exact (List.append_nil _).symm
  · exact (List.append_nil _).symm
  · simp [clearings, hn]
  · have hperm := (Pool.graves_of_retired hq).count_eq key
    have hds : graves [d] = [c.engine.pool.key id] := by simp [graves, hg]
    have hnone : (graves ([].flatMap Notice.deeds)).count key = 0 ∧
        (([] : List Entry).map (·.key)).count key = 0 := ⟨rfl, rfl⟩
    have hcons := List.perm_append_singleton (c.engine.pool.key id) c.engine.pool.graves
    have hlast := hcons.count_eq key
    rw [List.count_append] at hlast
    rw [hds]
    show p.graves.count key = _
    rw [List.count_nil]
    omega

theorem recordRead (c : Cache) (id : NodeId) : Credits [] c (c.recordRead id) := by
  unfold Cache.recordRead
  split
  · exact change (.record ‹_›) rfl
  · exact same rfl rfl rfl rfl

/-- A drain answers for its victims. -/
theorem drained (c : Cache) : Credits [] c c.drained := by
  intro hc
  have hsound := (Engine.Evolves.of_changes (c.engine.changes_run c.capacity)).store hc.sound
  refine ⟨⟨?_, ?_⟩, [], (c.engine.run c.capacity).1.victims, [], ?_, ?_, ?_, rfl, fun key => ?_⟩
  · rw [engine_drained]
    exact hsound
  · unfold Stocked
    rw [listener_drained]
    exact hc.stocked
  · rw [notices_drained, List.append_nil]
  · exact victims_drained c
  · exact evictions_drained c
  · have hperm := (c.engine.graves_run c.capacity).count_eq key
    rw [List.count_append] at hperm
    have hnone : (BoundedCache.graves []).count key = 0 := rfl
    rw [engine_drained, List.flatMap_nil, hnone, List.count_nil]
    omega

end Credits

end Cache

structure Courier.Honest (courier : Courier) : Prop where
  moving : courier.Moving
  credits : ∀ c : Cache, Cache.Credits [] c (courier c).2

namespace Cache

variable {c c' : Cache} {courier : Courier} {event : Event} {key : Key} {id : NodeId} {call : Call}

namespace Credits

theorem drain (hc : courier.Honest) (c : Cache) : Credits [] c (c.drain courier) :=
  (drained c).trans (hc.credits _)

theorem recordWrite (hc : courier.Honest) (h : c.recordWrite courier event = some c') :
    Credits [] c c' := by
  obtain ⟨ready, b, hd, hb, rfl⟩ := recordWithin_eq_some h
  have hready : Credits [] c ready := hd.keeps (fun c' _ h => h.trans (drain hc c')) (refl c)
  have hrecorded : Credits [] ready
      { ready with engine := { ready.engine with buffers := b } } := change (.record hb) rfl
  rcases settled_cases courier b ready with he | he
  · rw [he]
    exact hready.trans hrecorded
  · rw [he]
    exact hready.trans (hrecorded.trans (drain hc _))

/-- A write that is counted and then gets its event in, or not. -/
theorem finishWrite {α : Type} (hc : courier.Honest) (f : Counters → Counters)
    (hf : ∀ n : Counters, (f n).evictions = n.evictions) (event : Event) (result : α) (c : Cache) :
    Credits [] c ((c.count f).finishWrite courier event result).2 := by
  have hcount : Credits [] c (c.count f) := same rfl rfl rfl (hf _)
  unfold Cache.finishWrite
  cases h : (c.count f).recordWrite courier event with
  | some c' => exact hcount.trans (recordWrite hc h)
  | none => exact hcount

theorem overwrite (hc : courier.Honest) {fresh : Held} {r : Reply (Option Value) × Cache}
    (h : c.overwrite courier id fresh = some r) : Credits [] c r.2 := by
  obtain ⟨⟨last, p⟩, hr, rfl⟩ := Option.map_eq_some_iff.mp h
  have hq := Pool.rewrites_of_replace hr
  have hwrite : Credits [] c { c with engine := { c.engine with pool := p } } :=
    change (.rewrite hq) (Pool.graves_of_replaced hq)
  exact hwrite.trans (finishWrite hc _ (by exact fun _ => rfl) _ _ _)

theorem meetLive (hc : courier.Honest) {onLive : OnLive} {fresh : Held} {sight : Sight}
    {r : Reply (Option Value) × Cache} (h : c.meetLive courier onLive fresh id sight = some r) :
    Credits [] c r.2 := by
  cases onLive with
  | overwrite => exact overwrite hc h
  | keep =>
    cases h
    exact recordRead c id

theorem mapFresh? {fresh : Held} {vacancy : Vacancy} (h : c.mapFresh? key fresh vacancy = some c') :
    Credits [] c c' := by
  obtain ⟨s, hs, rfl⟩ := Option.map_eq_some_iff.mp h
  have hadd := c.engine.pool.graves_add key fresh
  cases vacancy with
  | unmapped =>
    cases ht : c.engine.store.insertIfAbsent key c.engine.pool.next with
    | ok t =>
      simp only [ht, Except.toOption, Option.some.injEq] at hs
      exact hs ▸ change (.insert ht) hadd
    | error resident => simp [ht, Except.toOption] at hs
  | retired id => exact change (.supersede hs) hadd

theorem occupy (hc : courier.Honest) {i : Insertion} {r : Reply (Option Value) × Cache}
    (h : c.occupy courier i = some r) : Credits [] c r.2 := by
  obtain ⟨next, hm, rfl⟩ := Option.map_eq_some_iff.mp h
  exact (mapFresh? hm).trans (finishWrite hc _ (by exact fun _ => rfl) _ _ _)

/-- A look that finds a live node ends the insertion. -/
theorem seek (hc : courier.Honest) {onLive : OnLive} {fresh : Held} {reply : Reply (Option Value)}
    (h : c.seek courier onLive key fresh = .settled reply c') : Credits [] c c' := by
  unfold Cache.seek at h
  split at h
  · cases h
  · cases h
  · rename_i id sight _
    cases h
    cases hlive : c.meetLive courier onLive fresh id sight with
    | none => exact refl c
    | some r => exact meetLive hc hlive

/-- An attempt that fails has done nothing yet. -/
theorem occupyOr (hc : courier.Honest) (i : Insertion) {other : Reply (Option Value) × Cache}
    (h : Credits [] c other.2) : Credits [] c ((c.occupy courier i).getD other).2 := by
  cases ho : c.occupy courier i with
  | none => exact h
  | some r => exact occupy hc ho

theorem insertNow (hc : courier.Honest) (onLive : OnLive) (key : Key) (fresh : Held) (c : Cache) :
    Credits [] c (c.insertNow courier onLive key fresh).2 := by
  unfold Cache.insertNow
  cases hs : c.seek courier onLive key fresh with
  | gap i => exact occupyOr hc i (refl c)
  | settled reply next => exact seek hc hs

theorem resumeInsert (hc : courier.Honest) (i : Insertion) (c : Cache) :
    Credits [] c (c.resumeInsert courier i).2 :=
  occupyOr hc i (insertNow hc i.onLive i.key i.fresh c)

theorem put (hc : courier.Honest) (key : Key) (value : Value) (c : Cache) :
    Credits [] c (c.put courier key value).2 := by
  rw [Cache.put, finish_startInsert]
  cases c.weigh value with
  | error message => exact refl c
  | ok fresh => exact insertNow hc .overwrite key fresh c

theorem get (key : Key) (c : Cache) : Credits [] c (c.get key).2 := by
  have hcount (f : Counters → Counters) (hf : (f c.counters).evictions = c.counters.evictions) :
      Credits [] c (c.count f) := same rfl rfl rfl hf
  unfold Cache.get
  cases c.lookup key with
  | none => exact hcount (fun n => { n with misses := n.misses + 1 }) rfl
  | some found =>
    exact (hcount (fun n => { n with hits := n.hits + 1 }) rfl).trans (recordRead _ _)

theorem replace (hc : courier.Honest) (key : Key) (value : Value) (c : Cache) :
    Credits [] c (c.replace courier key value).2 := by
  unfold Cache.replace
  cases c.engine.store.get? key with
  | none => exact refl c
  | some id =>
    dsimp only
    cases c.weigh value with
    | error message => exact refl c
    | ok fresh =>
      dsimp only
      cases h : c.overwrite courier id fresh with
      | none => exact refl c
      | some r => exact overwrite hc h

theorem setCapacity (hc : courier.Honest) (capacity : Nat) (c : Cache) :
    Credits [] c (c.setCapacity courier capacity).2 := by
  have hcap : Credits [] c { c with capacity } := same rfl rfl rfl rfl
  unfold Cache.setCapacity
  split
  · exact refl c
  · split
    · exact refl c
    · exact hcap.trans (drain hc _)

theorem cleanUp (hc : courier.Honest) (c : Cache) : Credits [] c (c.cleanUp courier).2 := by
  unfold Cache.cleanUp
  split
  · exact refl c
  · exact drain hc c

/-- A clearing answers for as many nodes as it counts. -/
theorem clear (hc : courier.Honest) (c : Cache) :
    Credits [⟨.call .clear, (Reply.answering .count (c.clear courier)).1⟩] c
      (c.clear courier).2 := by
  have hcleared : Credits [⟨.call .clear, .count c.cleared.1⟩] c c.cleared.2 := by
    intro hlegible
    obtain ⟨keys, hlength, hperm⟩ := c.engine.graves_clear
    have hsound := (Engine.Evolves.of_changes c.engine.changes_clear).store hlegible.sound
    simp only [cleared_eq]
    refine ⟨⟨hsound, hlegible.stocked⟩, [], [], keys, ?_, ?_, rfl, hlength, fun key => ?_⟩
    · exact (List.append_nil _).symm
    · exact (List.append_nil _).symm
    · have hcount := hperm.count_eq key
      rw [List.count_append] at hcount
      have hnone : (graves [⟨.call .clear, .count c.engine.clear.1⟩]).count key = 0 ∧
          (graves ([].flatMap Notice.deeds)).count key = 0 ∧
          (([] : List Entry).map (·.key)).count key = 0 := ⟨rfl, rfl, rfl⟩
      show c.engine.clear.2.pool.graves.count key = _
      omega
  unfold Cache.clear
  split
  · exact (refl c).idle rfl rfl
  · exact hcleared.trans (hc.credits _)

/-- A removal answers for the node it retires, also when it waits for ever afterwards. -/
theorem remove (hc : courier.Honest) (key : Key) (c : Cache) :
    Credits [⟨.call (.remove key), (Reply.answering .value (c.remove courier key)).1⟩] c
      (c.remove courier key).2 := by
  unfold Cache.remove
  cases hr : c.engine.store.remove key with
  | none => exact (refl c).idle rfl rfl
  | some result =>
    obtain ⟨id, s⟩ := result
    have hmatch := Store.remove_eq_some_iff.mp hr
    have hunmap : Credits [] c { c with engine := { c.engine with store := s } } :=
      change (.unmap hmatch) rfl
    dsimp only
    cases hp : c.engine.pool.retire id with
    | none => exact hunmap.idle rfl rfl
    | some result =>
      obtain ⟨last, p⟩ := result
      dsimp only
      intro hlegible
      have hkey : c.engine.pool.key id = key :=
        hlegible.sound.keyed key id (Store.get?_of_removeIfMatch hmatch)
      have hretire (d : Deed) (hg : d.grave = some key) (hn : d.cleared = 0) :
          Credits [d] { c with engine := { c.engine with store := s } }
            { c with engine := { c.engine with store := s, pool := p } } :=
        buries (Pool.rewrites_of_retire hp) (hkey ▸ hg) hn
      have hfinish := finishWrite (α := Option Value) hc
        (fun n => { n with removals := n.removals + 1 }) (fun _ => rfl) ⟨.remove, id⟩
        (some last.value) { c with engine := { c.engine with store := s, pool := p } }
      refine (hunmap.trans ((hretire _ ?_ ?_).trans hfinish)) hlegible
      · unfold Cache.finishWrite
        split <;> rfl
      · unfold Cache.finishWrite
        split <;> rfl

end Credits

end Cache

/-- What a call in its gap owes. A conditional write knows the node under its own key, and retires
it only on behalf of a removal. -/
inductive Suspended.Owes (c : Cache) : Call → Suspended → Prop where
  | insertion {call : Call} (sparing : call.sparing = true) (i : Insertion) :
      Owes c call (.insertion i)
  | removal (expected : Value) {id : NodeId} {seen : Sight} (saw : c.engine.pool.Saw id seen) :
      Owes c (.removeIf (c.engine.pool.key id) expected)
        (.conditional ⟨c.engine.pool.key id, id, seen, expected, none⟩)
  | replacement {call : Call} (sparing : call.sparing = true) (key : Key) (expected : Value)
      {fresh : Held} {id : NodeId} {seen : Sight} (saw : c.engine.pool.Saw id seen) :
      Owes c call (.conditional ⟨key, id, seen, expected, some fresh⟩)

namespace Cache

variable {c c' : Cache} {call : Call} {s : Suspended}

/-- What is owed stays so, whatever runs in the gap. -/
theorem Moves.owes (h : c.Moves c') (hs : s.Owes c call) : s.Owes c' call := by
  cases hs with
  | insertion hspare i => exact .insertion hspare i
  | removal expected saw =>
    obtain ⟨n, hn, _⟩ := id saw
    rw [← h.evolves.pool.key_eq (Pool.lt_next_of_node? hn)]
    exact .removal expected (saw.grows h.evolves.pool)
  | replacement hspare key expected saw =>
    exact .replacement hspare key expected (saw.grows h.evolves.pool)

end Cache

open Cache

variable {c : Cache} {courier : Courier} {call : Call} {s : Suspended}

theorem Suspended.resume_credits (hc : courier.Honest) (hs : s.Owes c call) :
    Credits [⟨.call call, (s.resume courier c).1⟩] c (s.resume courier c).2 := by
  cases hs with
  | insertion hspare i => exact (Credits.resumeInsert hc i c).sparing hspare _
  | @replacement _ hspare key expected fresh id seen saw =>
    refine Credits.sparing ?_ hspare _
    show Credits [] c (c.resumeSwap courier ⟨key, id, seen, expected, some fresh⟩).2
    unfold resumeSwap
    dsimp only
    cases hs : c.engine.pool.swapSeen id seen (· == expected) (some fresh) with
    | error refusal => exact .refl c
    | ok result =>
      obtain ⟨last, p⟩ := result
      have hq := (Pool.rewrites_of_swapSeen saw hs).1
      have hwrite : Credits [] c { c with engine := { c.engine with pool := p } } :=
        .change (.rewrite hq) (Pool.graves_of_replaced hq)
      exact hwrite.trans (.finishWrite hc _ (by exact fun _ => rfl) _ _ _)
  | @removal expected id seen saw =>
    unfold resume resumeSwap
    dsimp only
    cases hs : c.engine.pool.swapSeen id seen (· == expected) none with
    | error refusal => exact (Credits.refl c).idle rfl rfl
    | ok result =>
      obtain ⟨last, p⟩ := result
      dsimp only
      let key := c.engine.pool.key id
      let store := (c.engine.store.removeIfMatch key id).getD c.engine.store
      have hretire (d : Deed) (hg : d.grave = some key) (hn : d.cleared = 0) :
          Credits [d] c { c with engine := { c.engine with pool := p } } :=
        .buries (Pool.rewrites_of_swapSeen saw hs).1 hg hn
      have hunmap : Credits [] { c with engine := { c.engine with pool := p } }
          { c with engine := { c.engine with pool := p, store } } := by
        cases ht : c.engine.store.removeIfMatch key id with
        | none =>
          simp only [store, ht, Option.getD_none]
          exact .refl _
        | some t =>
          simp only [store, ht, Option.getD_some]
          exact .change (.unmap ht) rfl
      have hfinish := Credits.finishWrite hc (fun n => { n with removals := n.removals + 1 })
        (fun _ => rfl) ⟨.remove, id⟩ true { c with engine := { c.engine with pool := p, store } }
      refine (hretire _ ?_ ?_).trans (hunmap.trans hfinish)
      · unfold Cache.finishWrite Reply.answering
        split <;> rfl
      · unfold Cache.finishWrite Reply.answering
        split <;> rfl

/-- A call up to its gap has credited what it retired if it has ended, and owes it if it has not. -/
inductive Progress.Owed (c : Cache) (call : Call) : Progress Suspended (Answer Step) → Prop where
  | settled {answer : Answer Step} {c' : Cache} (credits : Credits [⟨.call call, answer⟩] c c') :
      Owed c call (.settled answer c')
  | gap {s : Suspended} (owes : s.Owes c call) : Owed c call (.gap s)

namespace Progress.Owed

theorem startInsert (hc : courier.Honest) (onLive : OnLive) (key : Key) (value : Value)
    (hcall : call.sparing = true) :
    ((c.startInsert courier onLive key value).answering .value .insertion).Owed c call := by
  unfold Cache.startInsert
  cases c.weigh value with
  | error message => exact .settled ((Credits.refl c).sparing hcall _)
  | ok fresh =>
    dsimp only
    cases hs : c.seek courier onLive key fresh with
    | gap i => exact .gap (.insertion hcall i)
    | settled reply next => exact .settled ((Credits.seek hc hs).sparing hcall _)

theorem startRemoveIf (hs : c.engine.store.Sound c.engine.pool) (key : Key) (expected : Value) :
    ((c.startRemoveIf key expected).answering .flag .conditional).Owed c
      (.removeIf key expected) := by
  unfold Cache.startRemoveIf
  cases hk : c.engine.store.get? key with
  | none => exact .settled ((Credits.refl c).idle rfl rfl)
  | some id =>
    dsimp only
    unfold startSwap
    cases hl : c.engine.pool.load id with
    | none => exact .settled ((Credits.refl c).idle rfl rfl)
    | some seen =>
      have hkey := hs.keyed key id hk
      subst hkey
      exact .gap (.removal expected (Pool.saw_of_load hl))

theorem startReplaceIf (key : Key) (expected value : Value) (c : Cache) :
    ((c.startReplaceIf key expected value).answering .flag .conditional).Owed c
      (.replaceIf key expected value) := by
  unfold Cache.startReplaceIf
  cases c.engine.store.get? key with
  | none => exact .settled ((Credits.refl c).sparing rfl _)
  | some id =>
    dsimp only
    cases c.weigh value with
    | error message => exact .settled ((Credits.refl c).sparing rfl _)
    | ok fresh =>
      dsimp only
      unfold startSwap
      cases hl : c.engine.pool.load id with
      | none => exact .settled ((Credits.refl c).sparing rfl _)
      | some seen => exact .gap (.replacement rfl key expected (Pool.saw_of_load hl))

end Progress.Owed

theorem Call.start_owed (hc : courier.Honest) (call : Call) (hl : c.Legible) :
    (call.start courier c).Owed c call := by
  cases call with
  | put key value => exact .startInsert hc .overwrite key value rfl
  | putIfAbsent key value => exact .startInsert hc .keep key value rfl
  | removeIf key expected => exact .startRemoveIf hl.sound key expected
  | replaceIf key expected value => exact .startReplaceIf key expected value c
  | get key => exact .settled ((Credits.get key c).sparing rfl _)
  | replace key value => exact .settled ((Credits.replace hc key value c).sparing rfl _)
  | remove key => exact .settled (.remove hc key c)
  | setCapacity capacity => exact .settled ((Credits.setCapacity hc capacity c).sparing rfl _)
  | clear => exact .settled (.clear hc c)
  | cleanUp => exact .settled ((Credits.cleanUp hc c).sparing rfl _)
  | getQuietly | contains | length | isEmpty | weightedSize | capacity | check | metrics | describe =>
    exact .settled ((Credits.refl c).sparing rfl _)

theorem Call.run_credits (hc : courier.Honest) (call : Call) (c : Cache) :
    Credits [⟨.call call, (call.run courier c).1⟩] c (call.run courier c).2 := by
  intro hl
  have hstart := call.start_owed hc hl
  unfold Call.run
  cases hcall : call.start courier c with
  | settled answer next =>
    rw [hcall] at hstart
    cases hstart with
    | settled credits => exact credits hl
  | gap s =>
    rw [hcall] at hstart
    cases hstart with
    | gap owes => exact Suspended.resume_credits hc owes hl

end BoundedCache
