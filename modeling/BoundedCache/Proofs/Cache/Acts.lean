import BoundedCache.Proofs.Cache.Calls

namespace BoundedCache

structure MapEffect where
  key : Key
  answer : Answer Step
  /-- What the key is mapped to afterwards. No other key is touched. -/
  after : Option Value
  event : Option EventKind

namespace Call

/-- The calls of one key, on a map without a bound. -/
def onMap (m : Key → Option Value) : Call → Option MapEffect
  | .get key => some ⟨key, .value (m key), m key, (m key).map fun _ => .read⟩
  | .getQuietly key => some ⟨key, .value (m key), m key, none⟩
  | .contains key => some ⟨key, .flag (m key).isSome, m key, none⟩
  | .put key value =>
    some ⟨key, .value (m key), some value, some (if (m key).isSome then .update else .add)⟩
  | .putIfAbsent key value =>
    some ⟨key, .value (m key), some ((m key).getD value),
      some (if (m key).isSome then .read else .add)⟩
  | .replace key value =>
    some ⟨key, .value (m key), (m key).map fun _ => value, (m key).map fun _ => .update⟩
  | .remove key => some ⟨key, .value (m key), none, (m key).map fun _ => .remove⟩
  | .removeIf key expected =>
    some (if m key = some expected then ⟨key, .flag true, none, some .remove⟩
      else ⟨key, .flag false, m key, none⟩)
  | .replaceIf key expected value =>
    some (if m key = some expected then ⟨key, .flag true, some value, some .update⟩
      else ⟨key, .flag false, m key, none⟩)
  | _ => none

def offer? : Call → Option Value
  | .put _ value | .putIfAbsent _ value | .replace _ value | .replaceIf _ _ value => some value
  | _ => none

end Call

theorem Pool.swapSeen_of_load {p : Pool} {id : NodeId} {seen : Sight} (h : p.load id = some seen)
    (accepts : Value → Bool) (next : Option Held) :
    p.swapSeen id seen accepts next = p.swapWhen id accepts next := by
  obtain ⟨n, hn, hload⟩ := Option.bind_eq_some_iff.mp h
  simp only [swapSeen, swapWhen, write, hn, Node.swapSeen_load hload]

namespace Cache

variable {c c' next : Cache} {key k : Key} {id : NodeId} {seen : Sight} {last fresh : Held}
  {value expected : Value} {after : Option Value} {event : Option Event} {f : Counters → Counters}
  {courier : Courier} {answer : Answer Step}

/-- A quiet read finds what is held by the node that the key is mapped to. -/
theorem getQuietly_eq (key : Key) (c : Cache) : c.getQuietly key =
    (c.engine.store.get? key).bind fun id => (c.engine.pool.held id).map (·.value) := by
  unfold getQuietly lookup sight
  cases c.engine.store.get? key with
  | none => rfl
  | some id =>
    dsimp only [Option.bind_some]
    cases hl : c.engine.pool.load id with
    | none => rw [Pool.load_eq_none_iff.mp hl]; rfl
    | some seen => rw [Pool.held_of_load hl]; rfl

theorem getQuietly_of_held (hk : c.engine.store.get? key = some id)
    (hh : c.engine.pool.held id = some last) : c.getQuietly key = some last.value := by
  rw [getQuietly_eq, hk, Option.bind_some, hh]
  rfl

/-- A retired node counts as absent. -/
theorem getQuietly_of_retired (hk : c.engine.store.get? key = some id)
    (hh : c.engine.pool.held id = none) : c.getQuietly key = none := by
  rw [getQuietly_eq, hk, Option.bind_some, hh]
  rfl

theorem getQuietly_of_unmapped (hk : c.engine.store.get? key = none) : c.getQuietly key = none := by
  rw [getQuietly_eq, hk]
  rfl

theorem contains_eq (key : Key) (c : Cache) : c.contains key = (c.getQuietly key).isSome :=
  Option.isSome_map.symm

inductive Sees (c : Cache) (key : Key) : Sighting → Prop where
  | unmapped (mapped : c.engine.store.get? key = none) : Sees c key .unmapped
  | retired {id : NodeId} (mapped : c.engine.store.get? key = some id)
      (dead : c.engine.pool.held id = none) : Sees c key (.retired id)
  | live {id : NodeId} {seen : Sight} (mapped : c.engine.store.get? key = some id)
      (load : c.engine.pool.load id = some seen) : Sees c key (.live id seen)

theorem sees (c : Cache) (key : Key) : c.Sees key (c.sight key) := by
  unfold sight
  cases hk : c.engine.store.get? key with
  | none => exact .unmapped hk
  | some id =>
    dsimp only
    cases hl : c.engine.pool.load id with
    | none => exact .retired hk (Pool.load_eq_none_iff.mp hl)
    | some seen => exact .live hk hl

/-- A key without a value is unmapped, or mapped to a retired node. -/
theorem unmapped_or_retired (h : c.getQuietly key = none) :
    c.engine.store.get? key = none ∨
      ∃ id, c.engine.store.get? key = some id ∧ c.engine.pool.held id = none := by
  have hsees := c.sees key
  generalize c.sight key = found at hsees
  cases hsees with
  | unmapped mapped => exact .inl mapped
  | retired mapped dead => exact .inr ⟨_, mapped, dead⟩
  | live mapped load =>
    cases (getQuietly_of_held mapped (Pool.held_of_load load)).symm.trans h

/-- A key with a value is mapped to a live node. -/
theorem sight_of_getQuietly (h : c.getQuietly key = some value) :
    ∃ id seen, c.engine.store.get? key = some id ∧ c.engine.pool.load id = some seen ∧
      c.sight key = .live id seen ∧ seen.held.value = value := by
  have hsees := c.sees key
  generalize hfound : c.sight key = found at hsees
  cases hsees with
  | unmapped mapped => cases (getQuietly_of_unmapped mapped).symm.trans h
  | retired mapped dead => cases (getQuietly_of_retired mapped dead).symm.trans h
  | @live id seen mapped load =>
    have hvalue := (getQuietly_of_held mapped (Pool.held_of_load load)).symm.trans h
    exact ⟨id, seen, mapped, load, rfl, Option.some.inj hvalue⟩

/-- What a call has done to nodes and store when its event is still in its hands: the value of its
key afterwards, the event, and the cache. -/
inductive Acts (c : Cache) (key : Key) (f : Counters → Counters) :
    Option Value → Option Event → Cache → Prop where
  | idle : Acts c key f (c.getQuietly key) none (c.count f)
  | read {id : NodeId} {last : Held} (mapped : c.engine.store.get? key = some id)
      (alive : c.engine.pool.held id = some last) :
      Acts c key f (some last.value) (some ⟨.read, id⟩) (c.count f)
  | replace {id : NodeId} {last fresh : Held} {p : Pool}
      (mapped : c.engine.store.get? key = some id)
      (pool : c.engine.pool.Rewrites p id last (some fresh)) :
      Acts c key f (some fresh.value) (some ⟨.update, id⟩)
        (count { c with engine := { c.engine with pool := p } } f)
  | insert {fresh : Held} {s : Store}
      (store : c.engine.store.insertIfAbsent key c.engine.pool.next = .ok s) :
      Acts c key f (some fresh.value) (some ⟨.add, c.engine.pool.next⟩)
        (count { c with engine :=
          { c.engine with store := s, pool := c.engine.pool.add key fresh } } f)
  | supersede {id : NodeId} {fresh : Held} {s : Store} (dead : c.engine.pool.held id = none)
      (store : c.engine.store.replaceIfMatch key id c.engine.pool.next = some s) :
      Acts c key f (some fresh.value) (some ⟨.add, c.engine.pool.next⟩)
        (count { c with engine :=
          { c.engine with store := s, pool := c.engine.pool.add key fresh } } f)
  | retire {id : NodeId} {last : Held} {p : Pool} {s : Store}
      (pool : c.engine.pool.Rewrites p id last none)
      (store : c.engine.store.removeIfMatch key id = some s) :
      Acts c key f none (some ⟨.remove, id⟩)
        (count { c with engine := { c.engine with pool := p, store := s } } f)
  | drop {id : NodeId} {s : Store} (dead : c.engine.pool.held id = none)
      (store : c.engine.store.removeIfMatch key id = some s) :
      Acts c key f none none (count { c with engine := { c.engine with store := s } } f)

namespace Acts

/-- Nodes, store and counters apart, nothing changes before the event. -/
theorem rest (h : c.Acts key f after event next) :
    next = { c with
      engine := { c.engine with pool := next.engine.pool, store := next.engine.store }
      counters := f c.counters } := by
  cases h <;> rfl

/-- The node of another key is another node. -/
theorem ne_of_key_ne (hs : c.engine.store.Sound c.engine.pool)
    (hk : c.engine.store.get? key = some id) {other : NodeId}
    (ho : c.engine.store.get? k = some other) (hne : k ≠ key) : other ≠ id := by
  intro he
  rw [← hs.keyed k other ho, he, hs.keyed key id hk] at hne
  exact hne rfl

/-- A node that is new is mapped to no key before. -/
theorem ne_next (hs : c.engine.store.Sound c.engine.pool)
    (hk : c.engine.store.get? k = some id) : id ≠ c.engine.pool.next :=
  Nat.ne_of_lt (hs.made k id hk)

/-- A rewriting of the node of a key leaves the values of all other keys alone. -/
theorem held_of_rewrites (hs : c.engine.store.Sound c.engine.pool) {p : Pool} {now : Option Held}
    (hk : c.engine.store.get? key = some id) (hp : c.engine.pool.Rewrites p id last now)
    (hne : k ≠ key) :
    ((c.engine.store.get? k).bind fun id => (p.held id).map (·.value)) = c.getQuietly k := by
  rw [getQuietly_eq]
  refine Option.bind_congr fun other ho => ?_
  rw [hp.held, if_neg (ne_of_key_ne hs hk ho hne)]

/-- A new node leaves the values of all other keys alone. -/
theorem held_of_add (hs : c.engine.store.Sound c.engine.pool) (key : Key) (fresh : Held) (k : Key) :
    ((c.engine.store.get? k).bind fun id =>
      ((c.engine.pool.add key fresh).held id).map (·.value)) = c.getQuietly k := by
  rw [getQuietly_eq]
  refine Option.bind_congr fun other ho => ?_
  rw [Pool.held_add, if_neg (ne_next hs ho)]

/-- The key has its new value, every other key the value that it had. -/
theorem getQuietly (h : c.Acts key f after event next)
    (hs : c.engine.store.Sound c.engine.pool) (k : Key) :
    next.getQuietly k = if k = key then after else c.getQuietly k := by
  split
  · rename_i he
    subst he
    cases h with
    | idle => rfl
    | read mapped alive => exact getQuietly_of_held mapped alive
    | @replace id _ fresh p mapped pool =>
      have hheld : p.held id = some fresh := (pool.held id).trans (if_pos rfl)
      exact getQuietly_of_held mapped hheld
    | @insert fresh s store =>
      have hmapped := (Store.get?_insertIfAbsent store k).trans (if_pos rfl)
      exact getQuietly_of_held hmapped ((Pool.held_add ..).trans (if_pos rfl))
    | @supersede _ fresh s _ store =>
      have hmapped := (Store.get?_replaceIfMatch store k).trans (if_pos rfl)
      exact getQuietly_of_held hmapped ((Pool.held_add ..).trans (if_pos rfl))
    | retire _ store | drop _ store =>
      exact getQuietly_of_unmapped ((Store.get?_removeIfMatch store k).trans (if_pos rfl))
  · rename_i hne
    rw [getQuietly_eq]
    cases h with
    | idle | read => exact (getQuietly_eq k c).symm
    | replace mapped pool => exact held_of_rewrites hs mapped pool hne
    | @insert fresh s store =>
      have hsame : s.get? k = _ := (Store.get?_insertIfAbsent store k).trans (if_neg hne)
      exact hsame ▸ held_of_add hs key fresh k
    | @supersede _ fresh s _ store =>
      have hsame : s.get? k = _ := (Store.get?_replaceIfMatch store k).trans (if_neg hne)
      exact hsame ▸ held_of_add hs key fresh k
    | @retire _ _ _ s pool store =>
      have hsame : s.get? k = _ := (Store.get?_removeIfMatch store k).trans (if_neg hne)
      exact hsame ▸ held_of_rewrites hs (Store.get?_of_removeIfMatch store) pool hne
    | @drop _ s _ store =>
      have hsame : s.get? k = _ := (Store.get?_removeIfMatch store k).trans (if_neg hne)
      exact hsame ▸ (getQuietly_eq k c).symm

/-- The event is about the node of the key: about the one that it was mapped to if that was retired,
and about the one that it is mapped to now if not. -/
theorem about (h : c.Acts key f after event next) {ev : Event} (hev : event = some ev) :
    (if ev.kind = .remove then c else next).engine.store.get? key = some ev.node := by
  cases h with
  | idle | drop => cases hev
  | read mapped | replace mapped =>
    cases hev
    exact mapped
  | insert store =>
    cases hev
    exact (Store.get?_insertIfAbsent store key).trans (if_pos rfl)
  | supersede _ store =>
    cases hev
    exact (Store.get?_replaceIfMatch store key).trans (if_pos rfl)
  | retire _ store =>
    cases hev
    exact Store.get?_of_removeIfMatch store

end Acts

def HasRoom (c : Cache) : Prop :=
  (c.engine.buffers.queue c.engine.buffers.own).length < c.engine.buffers.room

/-- A writer that finds room does not drain before its event. -/
theorem recordWrite_of_ok {b : Buffers} {ev : Event}
    (hb : c.engine.buffers.recordOwn ev = .ok b) :
    c.recordWrite courier ev = some (c.settled courier b) := by
  unfold recordWrite recordWithin
  simp only [hb]
  rfl

/-- A writer that finds no room waits for whoever holds the lock. -/
theorem recordWrite_of_full (courier : Courier) (hlock : c.lockHeld = true) (hfull : ¬ c.HasRoom)
    (ev : Event) : c.recordWrite courier ev = none := by
  unfold recordWrite recordWithin
  cases hb : c.engine.buffers.recordOwn ev with
  | ok b => exact absurd (Buffers.record_eq_ok hb).2.1 hfull
  | error back => simp only [hlock, if_true]

/-- Ends a call that has changed nodes and store: a read is dropped if its event finds the buffer
full, a write waits for room. -/
def closing (courier : Courier) (answer : Answer Step) (event : Option Event) (c : Cache) :
    Answer Step × Cache :=
  match event with
  | none => (answer, c)
  | some event =>
    if event.kind = .read then (answer, c.recordRead event.node)
    else
      match c.recordWrite courier event with
      | some c => (answer, c)
      | none => (.blocked, c)

theorem answering_write {α : Type} (g : α → Answer Step) {ev : Event} (hkind : ev.kind ≠ .read)
    (result : α) (c : Cache) :
    Reply.answering g (c.finishWrite courier ev result) =
      c.closing courier (g result) (some ev) := by
  unfold finishWrite closing
  simp only [if_neg hkind]
  cases c.recordWrite courier ev <;> rfl

def Comes (courier : Courier) (c : Cache) (call : Call) (effect : MapEffect)
    (r : Answer Step × Cache) : Prop :=
  ∃ event next, c.Acts effect.key (call.tally effect.answer) effect.after event next ∧
    event.map (·.kind) = effect.event ∧ r = next.closing courier effect.answer event

variable {call : Call} {effect : MapEffect}

theorem insertNow_of_unmapped (courier : Courier) (onLive : OnLive) (fresh : Held)
    (mapped : c.engine.store.get? key = none) :
    ∃ s, c.engine.store.insertIfAbsent key c.engine.pool.next = .ok s ∧
      c.insertNow courier onLive key fresh =
        finishWrite courier ⟨.add, c.engine.pool.next⟩ none
          (count { c with engine :=
            { c.engine with store := s, pool := c.engine.pool.add key fresh } }
            fun n => { n with inserts := n.inserts + 1 }) := by
  obtain ⟨s, ht⟩ : ∃ s, c.engine.store.insertIfAbsent key c.engine.pool.next = .ok s :=
    ⟨_, Store.insertIfAbsent_of_unmapped mapped _⟩
  refine ⟨s, ht, ?_⟩
  simp only [insertNow, seek, sight_eq_unmapped_iff.mpr mapped, Progress.finish, occupy,
    mapFresh?, ht, Except.toOption, Option.map_some, Option.getD_some]

/-- A retired node loses its mapping to a new one. -/
theorem insertNow_of_retired (courier : Courier) (onLive : OnLive) (fresh : Held)
    (mapped : c.engine.store.get? key = some id) (dead : c.engine.pool.held id = none) :
    ∃ s, c.engine.store.replaceIfMatch key id c.engine.pool.next = some s ∧
      c.insertNow courier onLive key fresh =
        finishWrite courier ⟨.add, c.engine.pool.next⟩ none
          (count { c with engine :=
            { c.engine with store := s, pool := c.engine.pool.add key fresh } }
            fun n => { n with inserts := n.inserts + 1 }) := by
  obtain ⟨s, ht⟩ : ∃ s, c.engine.store.replaceIfMatch key id c.engine.pool.next = some s :=
    ⟨_, by rw [Store.replaceIfMatch, if_pos mapped]⟩
  have hfound : c.sight key = .retired id := by
    rw [sight, mapped]
    simp only [Pool.load_eq_none_iff.mpr dead]
  refine ⟨s, ht, ?_⟩
  simp only [insertNow, seek, hfound, Progress.finish, occupy, mapFresh?, ht, Option.map_some,
    Option.getD_some]

/-- An absent key is mapped to a new node. -/
theorem comes_insertNow_of_absent (courier : Courier) (onLive : OnLive) (fresh : Held)
    (habsent : c.getQuietly key = none) :
    c.Comes courier (onLive.call key fresh.value)
      ⟨key, .value none, some fresh.value, some .add⟩
      (Reply.answering .value (c.insertNow courier onLive key fresh)) := by
  have htally : (onLive.call key fresh.value).tally (.value none) =
      fun n => { n with inserts := n.inserts + 1 } := by
    cases onLive <;> rfl
  rcases unmapped_or_retired habsent with mapped | ⟨id, mapped, dead⟩
  · obtain ⟨s, ht, hrun⟩ := insertNow_of_unmapped courier onLive fresh mapped
    rw [hrun, answering_write .value (by simp), ← htally]
    exact ⟨_, _, .insert ht, rfl, rfl⟩
  · obtain ⟨s, ht, hrun⟩ := insertNow_of_retired courier onLive fresh mapped dead
    rw [hrun, answering_write .value (by simp), ← htally]
    exact ⟨_, _, .supersede dead ht, rfl, rfl⟩

/-- The value of a live node is replaced. -/
theorem comes_overwrite (courier : Courier) (call : Call)
    (hk : c.engine.store.get? key = some id) (hh : c.engine.pool.held id = some last) (fresh : Held)
    (htally : call.tally (.value (some last.value)) = fun n => { n with updates := n.updates + 1 }) :
    ∃ r, c.overwrite courier id fresh = some r ∧
      c.Comes courier call ⟨key, .value (some last.value), some fresh.value, some .update⟩
        (Reply.answering .value r) := by
  obtain ⟨p, hr⟩ := Pool.exists_replace hh fresh
  refine ⟨_, by rw [overwrite, hr]; rfl, _, _, .replace hk (Pool.rewrites_of_replace hr), rfl, ?_⟩
  rw [htally, ← answering_write .value (by simp)]

/-- An insertion overwrites or reads a live node, and maps an absent key to a new one. -/
theorem comes_insertNow (courier : Courier) (onLive : OnLive) (key : Key) (fresh : Held) (c : Cache)
    (heffect : (onLive.call key fresh.value).onMap (c.getQuietly ·) = some effect) :
    c.Comes courier (onLive.call key fresh.value) effect
      (Reply.answering .value (c.insertNow courier onLive key fresh)) := by
  cases hq : c.getQuietly key with
  | none =>
    have hinsert := comes_insertNow_of_absent courier onLive fresh hq
    cases onLive <;> simp only [OnLive.call, Call.onMap, hq] at heffect <;> cases heffect <;>
      exact hinsert
  | some value =>
    obtain ⟨id, seen, mapped, load, hfound, rfl⟩ := sight_of_getQuietly hq
    have hh := Pool.held_of_load load
    cases onLive with
    | overwrite =>
      simp only [OnLive.call, Call.onMap, hq] at heffect
      cases heffect
      obtain ⟨r, hr, hcomes⟩ :=
        comes_overwrite courier (.put key fresh.value) mapped hh fresh rfl
      simp only [insertNow, seek, hfound, meetLive, hr, Progress.finish, Option.getD_some]
      exact hcomes
    | keep =>
      simp only [OnLive.call, Call.onMap, hq] at heffect
      cases heffect
      refine ⟨_, _, .read mapped hh, rfl, ?_⟩
      simp only [insertNow, seek, hfound, meetLive, Progress.finish, Option.getD_some]
      rfl

/-- A call that only counts itself. -/
theorem comes_idle (courier : Courier) (hafter : c.getQuietly key = after) :
    c.Comes courier call ⟨key, answer, after, none⟩ (answer, c.count (call.tally answer)) := by
  subst hafter
  exact ⟨none, _, .idle, rfl, rfl⟩

theorem get_of_absent (h : c.getQuietly key = none) :
    c.get key = (none, c.count fun n => { n with misses := n.misses + 1 }) := by
  have hlookup : c.lookup key = none := Option.map_eq_none_iff.mp h
  rw [get, hlookup]

theorem comes_get (courier : Courier) (key : Key) (c : Cache)
    (heffect : (Call.get key).onMap (c.getQuietly ·) = some effect) :
    c.Comes courier (.get key) effect (.value (c.get key).1, (c.get key).2) := by
  cases hq : c.getQuietly key with
  | none =>
    simp only [Call.onMap, hq, Option.map_none] at heffect
    cases heffect
    rw [get_of_absent hq]
    exact comes_idle courier hq
  | some value =>
    obtain ⟨id, seen, mapped, load, hfound, rfl⟩ := sight_of_getQuietly hq
    simp only [Call.onMap, hq, Option.map_some] at heffect
    cases heffect
    refine ⟨_, _, .read mapped (Pool.held_of_load load), rfl, ?_⟩
    simp only [get, lookup, hfound]
    rfl

/-- A conditional write that finds another value than the expected one does nothing. -/
theorem resumeSwap_of_unequal (courier : Courier) {now : Option Held}
    (hne : seen.held.value ≠ expected) :
    c.resumeSwap courier ⟨key, id, seen, expected, now⟩ = (.returned false, c) := by
  have hunequal : (seen.held.value == expected) = false := beq_false_of_ne hne
  obtain ⟨refusal, hr⟩ : ∃ refusal, c.engine.pool.swapSeen id seen (· == expected) now =
      .error refusal := Pool.swapSeen_of_unequal hunequal now
  simp only [resumeSwap, hr]

/-- A conditional write that finds the expected value goes through. -/
theorem exists_swapSeen (hl : c.engine.pool.load id = some seen)
    (hvalue : seen.held.value = expected) (now : Option Held) :
    ∃ p, c.engine.pool.swapSeen id seen (· == expected) now = .ok (seen.held, p) ∧
      c.engine.pool.Rewrites p id seen.held now := by
  obtain ⟨p, hp⟩ := Pool.exists_swapWhen (Pool.held_of_load hl) (· == expected)
    (beq_iff_eq.mpr hvalue) now
  have hswap := (Pool.swapSeen_of_load hl (· == expected) now).trans hp
  exact ⟨p, hswap, (Pool.rewrites_of_swapWhen hp).1⟩

theorem removeIf_of_absent (courier : Courier) (h : c.getQuietly key = none) (expected : Value) :
    c.removeIf courier key expected = (.returned false, c) := by
  rcases unmapped_or_retired h with mapped | ⟨id, mapped, dead⟩
  · simp only [removeIf, startRemoveIf, mapped, Progress.finish]
  · simp only [removeIf, startRemoveIf, mapped, startSwap, Pool.load_eq_none_iff.mpr dead,
      Progress.finish]

theorem comes_removeIf (courier : Courier) (key : Key) (expected : Value) (c : Cache)
    (heffect : (Call.removeIf key expected).onMap (c.getQuietly ·) = some effect) :
    c.Comes courier (.removeIf key expected) effect
      (Reply.answering .flag (c.removeIf courier key expected)) := by
  simp only [Call.onMap, Option.some.injEq] at heffect
  cases hq : c.getQuietly key with
  | none =>
    rw [hq, if_neg (by simp)] at heffect
    subst heffect
    rw [removeIf_of_absent courier hq]
    exact comes_idle courier hq
  | some value =>
    obtain ⟨id, seen, mapped, load, _, rfl⟩ := sight_of_getQuietly hq
    have hrun : c.removeIf courier key expected =
        c.resumeSwap courier ⟨key, id, seen, expected, none⟩ := by
      simp only [removeIf, startRemoveIf, mapped, startSwap, load, Progress.finish]
    rw [hrun]
    by_cases hvalue : seen.held.value = expected
    · rw [hq, if_pos (congrArg some hvalue)] at heffect
      subst heffect
      obtain ⟨p, hswap, hp⟩ := exists_swapSeen load hvalue none
      obtain ⟨s, ht⟩ : ∃ s, c.engine.store.removeIfMatch key id = some s :=
        ⟨_, by rw [Store.removeIfMatch, if_pos mapped]⟩
      refine ⟨_, _, .retire hp ht, rfl, ?_⟩
      simp only [resumeSwap, hswap, ht, Option.getD_some]
      exact answering_write .flag (by simp) true _
    · rw [hq, if_neg (by simpa using hvalue)] at heffect
      subst heffect
      rw [resumeSwap_of_unequal courier hvalue]
      exact comes_idle courier hq

theorem exists_remove (mapped : c.engine.store.get? key = some id) :
    ∃ s, c.engine.store.remove key = some (id, s) ∧
      c.engine.store.removeIfMatch key id = some s := by
  obtain ⟨s, ht⟩ : ∃ s, c.engine.store.removeIfMatch key id = some s :=
    ⟨_, by rw [Store.removeIfMatch, if_pos mapped]⟩
  exact ⟨s, Store.remove_eq_some_iff.mpr ht, ht⟩

/-- A removal that finds a retired node takes the mapping away. -/
theorem remove_of_retired (courier : Courier) (mapped : c.engine.store.get? key = some id)
    (dead : c.engine.pool.held id = none) :
    ∃ s, c.engine.store.removeIfMatch key id = some s ∧
      c.remove courier key = (.returned none, { c with engine := { c.engine with store := s } }) := by
  obtain ⟨s, hr, ht⟩ := exists_remove mapped
  refine ⟨s, ht, ?_⟩
  rw [remove, hr]
  simp only [Pool.retire_eq_none_iff.mpr dead]

theorem comes_remove (courier : Courier) (key : Key) (c : Cache)
    (heffect : (Call.remove key).onMap (c.getQuietly ·) = some effect) :
    c.Comes courier (.remove key) effect (Reply.answering .value (c.remove courier key)) := by
  simp only [Call.onMap, Option.some.injEq] at heffect
  subst heffect
  have hsees := c.sees key
  generalize c.sight key = found at hsees
  cases hsees with
  | unmapped mapped =>
    have hq := getQuietly_of_unmapped mapped
    rw [remove, Store.remove_eq_none_iff.mpr mapped, hq]
    exact comes_idle courier hq
  | retired mapped dead =>
    obtain ⟨s, ht, hremove⟩ := remove_of_retired courier mapped dead
    rw [hremove, getQuietly_of_retired mapped dead]
    exact ⟨_, _, .drop dead ht, rfl, rfl⟩
  | live mapped load =>
    have hh := Pool.held_of_load load
    obtain ⟨s, hr, ht⟩ := exists_remove mapped
    obtain ⟨p, hp⟩ := Pool.exists_retire hh
    rw [remove, hr, getQuietly_of_held mapped hh]
    simp only [hp]
    refine ⟨_, _, .retire (Pool.rewrites_of_retire hp) ht, rfl, ?_⟩
    exact answering_write .value (by simp) (some _) _

theorem weigh_eq_error {message : String} (h : c.weigh value = .error message) :
    c.weigher value = .error message := by
  unfold weigh at h
  cases hw : c.weigher value with
  | ok weight => simp [hw] at h
  | error text =>
    simp only [hw, Except.error.injEq] at h
    rw [h]

def Refuses (c : Cache) (call : Call) (r : Answer Step × Cache) : Prop :=
  ∃ value message, call.offer? = some value ∧ c.weigher value = .error message ∧
    r = (.refused message, c)

theorem replace_of_absent (courier : Courier) (h : c.getQuietly key = none) (value : Value) :
    c.Refuses (.replace key value) (Reply.answering .value (c.replace courier key value)) ∨
      c.replace courier key value = (.returned none, c) := by
  unfold replace
  rcases unmapped_or_retired h with mapped | ⟨id, mapped, dead⟩
  · rw [mapped]
    exact .inr rfl
  · rw [mapped]
    dsimp only
    cases hw : c.weigh value with
    | error message => exact .inl ⟨value, message, rfl, weigh_eq_error hw, rfl⟩
    | ok fresh =>
      have hreplace : c.engine.pool.replace id fresh = none := by
        cases hr : c.engine.pool.replace id fresh with
        | none => rfl
        | some r => cases dead.symm.trans (Pool.rewrites_of_replace hr).was
      dsimp only
      rw [overwrite, hreplace]
      exact .inr rfl

theorem comes_replace (courier : Courier) (key : Key) (value : Value) (c : Cache)
    (heffect : (Call.replace key value).onMap (c.getQuietly ·) = some effect) :
    c.Refuses (.replace key value) (Reply.answering .value (c.replace courier key value)) ∨
      c.Comes courier (.replace key value) effect
        (Reply.answering .value (c.replace courier key value)) := by
  simp only [Call.onMap, Option.some.injEq] at heffect
  subst heffect
  cases hq : c.getQuietly key with
  | none =>
    refine (replace_of_absent courier hq value).imp_right fun hrun => ?_
    rw [hrun]
    exact comes_idle courier hq
  | some last =>
    obtain ⟨id, seen, mapped, load, _, rfl⟩ := sight_of_getQuietly hq
    simp only [replace, mapped]
    cases hw : c.weigh value with
    | error message => exact .inl ⟨value, message, rfl, weigh_eq_error hw, rfl⟩
    | ok fresh =>
      obtain ⟨rfl, _⟩ := weigh_eq_ok hw
      obtain ⟨r, hr, hcomes⟩ := comes_overwrite courier (.replace key fresh.value) mapped
        (Pool.held_of_load load) fresh rfl
      simp only [hr, Option.getD_some]
      exact .inr hcomes

theorem replaceIf_of_absent (courier : Courier) (h : c.getQuietly key = none)
    (expected value : Value) :
    c.Refuses (.replaceIf key expected value)
        (Reply.answering .flag (c.replaceIf courier key expected value)) ∨
      c.replaceIf courier key expected value = (.returned false, c) := by
  rcases unmapped_or_retired h with mapped | ⟨id, mapped, dead⟩
  · refine .inr ?_
    simp only [replaceIf, startReplaceIf, mapped, Progress.finish]
  · cases hw : c.weigh value with
    | error message =>
      simp only [replaceIf, startReplaceIf, mapped, hw, Progress.finish]
      exact .inl ⟨value, message, rfl, weigh_eq_error hw, rfl⟩
    | ok fresh =>
      refine .inr ?_
      simp only [replaceIf, startReplaceIf, mapped, hw, startSwap, Pool.load_eq_none_iff.mpr dead,
        Progress.finish]

theorem comes_replaceIf (courier : Courier) (key : Key) (expected value : Value) (c : Cache)
    (heffect : (Call.replaceIf key expected value).onMap (c.getQuietly ·) = some effect) :
    c.Refuses (.replaceIf key expected value)
        (Reply.answering .flag (c.replaceIf courier key expected value)) ∨
      c.Comes courier (.replaceIf key expected value) effect
        (Reply.answering .flag (c.replaceIf courier key expected value)) := by
  simp only [Call.onMap, Option.some.injEq] at heffect
  cases hq : c.getQuietly key with
  | none =>
    rw [hq, if_neg (by simp)] at heffect
    subst heffect
    refine (replaceIf_of_absent courier hq expected value).imp_right fun hrun => ?_
    rw [hrun]
    exact comes_idle courier hq
  | some last =>
    obtain ⟨id, seen, mapped, load, _, rfl⟩ := sight_of_getQuietly hq
    cases hw : c.weigh value with
    | error message =>
      simp only [replaceIf, startReplaceIf, mapped, hw, Progress.finish]
      exact .inl ⟨value, message, rfl, weigh_eq_error hw, rfl⟩
    | ok fresh =>
      obtain ⟨rfl, _⟩ := weigh_eq_ok hw
      refine .inr ?_
      simp only [replaceIf, startReplaceIf, mapped, hw, startSwap, load, Progress.finish]
      by_cases hvalue : seen.held.value = expected
      · rw [hq, if_pos (congrArg some hvalue)] at heffect
        subst heffect
        obtain ⟨p, hswap, hp⟩ := exists_swapSeen load hvalue (some fresh)
        refine ⟨_, _, .replace mapped hp, rfl, ?_⟩
        simp only [resumeSwap, hswap]
        exact answering_write .flag (by simp) true _
      · rw [hq, if_neg (by simpa using hvalue)] at heffect
        subst heffect
        rw [resumeSwap_of_unequal courier hvalue]
        exact comes_idle courier hq

/-- An insertion that nothing comes between. -/
theorem run_insert (courier : Courier) (onLive : OnLive) (key : Key) (value : Value) (c : Cache) :
    (onLive.call key value).run courier c = Reply.answering .value
      (match c.weigh value with
      | .error message => (.refused message, c)
      | .ok fresh => c.insertNow courier onLive key fresh) := by
  have hfinish := finish_startInsert courier onLive key value c
  cases onLive <;>
    exact (Progress.finish_answering (fun _ _ => rfl) _ c).trans (congrArg _ hfinish)

theorem run_removeIf (courier : Courier) (key : Key) (expected : Value) (c : Cache) :
    (Call.removeIf key expected).run courier c =
      Reply.answering .flag (c.removeIf courier key expected) :=
  Progress.finish_answering (fun _ _ => rfl) _ c

theorem run_replaceIf (courier : Courier) (key : Key) (expected value : Value) (c : Cache) :
    (Call.replaceIf key expected value).run courier c =
      Reply.answering .flag (c.replaceIf courier key expected value) :=
  Progress.finish_answering (fun _ _ => rfl) _ c

theorem comes_insert (courier : Courier) (onLive : OnLive) (key : Key) (value : Value) (c : Cache)
    (heffect : (onLive.call key value).onMap (c.getQuietly ·) = some effect) :
    c.Refuses (onLive.call key value) ((onLive.call key value).run courier c) ∨
      c.Comes courier (onLive.call key value) effect ((onLive.call key value).run courier c) := by
  rw [run_insert]
  cases hw : c.weigh value with
  | error message =>
    have hoffer : (onLive.call key value).offer? = some value := by cases onLive <;> rfl
    exact .inl ⟨value, message, hoffer, weigh_eq_error hw, rfl⟩
  | ok fresh =>
    obtain ⟨rfl, _⟩ := weigh_eq_ok hw
    exact .inr (comes_insertNow courier onLive key fresh c heffect)

end Cache

open Cache

/-- A call of one key does to the live values what it does to a plain map, unless the weigher
refuses the value that it brings along. -/
theorem Call.run_comes (courier : Courier) (call : Call) (c : Cache) {effect : MapEffect}
    (heffect : call.onMap (c.getQuietly ·) = some effect) :
    c.Refuses call (call.run courier c) ∨ c.Comes courier call effect (call.run courier c) := by
  cases call with
  | put key value => exact comes_insert courier .overwrite key value c heffect
  | putIfAbsent key value => exact comes_insert courier .keep key value c heffect
  | get key => exact .inr (comes_get courier key c heffect)
  | getQuietly key =>
    cases heffect
    exact .inr (comes_idle courier rfl)
  | contains key =>
    cases heffect
    exact .inr (Cache.contains_eq key c ▸ comes_idle courier rfl)
  | replace key value => exact comes_replace courier key value c heffect
  | remove key => exact .inr (comes_remove courier key c heffect)
  | removeIf key expected =>
    rw [run_removeIf]
    exact .inr (comes_removeIf courier key expected c heffect)
  | replaceIf key expected value =>
    rw [run_replaceIf]
    exact comes_replaceIf courier key expected value c heffect
  | _ => cases heffect

end BoundedCache
