import BoundedCache.Proofs.Cache.Acts
import BoundedCache.Proofs.Cache.Arises
import BoundedCache.Proofs.Cache.Integrity
import BoundedCache.Proofs.Engine.Retired

namespace BoundedCache

namespace Cache

variable {s : Settings} {stage : Stage} {c c' : Cache} {key : Key} {id : NodeId} {fresh : Held}
  {ev : Event} {t : Store}

/-- No key is mapped to the node any more, whatever happens. -/
def Forgets (c : Cache) (id : NodeId) : Prop :=
  ∀ c', c.Moves c' → ∀ key, c'.engine.store.get? key ≠ some id

/-- A retired node that loses its mapping does not get another. -/
theorem Reachable.forgets (h : Reachable s c) (hk : c.engine.store.get? key = some id)
    (hdead : c.engine.pool.held id = none) (hmoves : c.Moves c')
    (hothers : ∀ k ≠ key, c'.engine.store.get? k = c.engine.store.get? k)
    (hkey : c'.engine.store.get? key ≠ some id) : c'.Forgets id := by
  have hleft := Engine.Left.of_changes hmoves.engine h.wellFormed (h.sound.made key id hk) hdead
  intro c'' hlater
  refine (Engine.Left.of_changes hlater.engine (h.moves hmoves).wellFormed
    hleft.made hleft.dead).unmapped fun k hmapped => ?_
  by_cases he : k = key
  · exact hkey (he ▸ hmapped)
  · -- A node is mapped under its own key only.
    exact Acts.ne_of_key_ne h.sound hk (hothers k he ▸ hmapped) he rfl

/-- A new node, which is alive, has taken the mapping of the key over. Nothing else has changed, but
that one insertion more is counted. -/
structure Supersedes (c : Cache) (key : Key) (fresh : Held) (taken : Cache) : Prop where
  mapping : ∀ k, taken.engine.store.get? k =
    if k = key then some c.engine.pool.next else c.engine.store.get? k
  length : taken.length = c.length
  made : c.engine.pool.node? c.engine.pool.next = none
  nodes : ∀ id, taken.engine.pool.node? id =
    if id = c.engine.pool.next then some { key, held := some fresh } else c.engine.pool.node? id
  values : ∀ k, taken.getQuietly k = if k = key then some fresh.value else c.getQuietly k
  rest : taken = { c with
    engine := { c.engine with pool := taken.engine.pool, store := taken.engine.store }
    counters := { c.counters with inserts := c.counters.inserts + 1 } }

structure Drops (c : Cache) (key : Key) (last : Cache) : Prop where
  mapping : ∀ k, last.engine.store.get? k = if k = key then none else c.engine.store.get? k
  length : last.length + 1 = c.length
  values : ∀ k, last.getQuietly k = c.getQuietly k
  rest : last = { c with engine := { c.engine with store := last.engine.store } }

/-- How a write ends that has done its work on nodes and store. Its event gets into the buffer of
the caller, after as many drains as it takes to find room there; or it waits for somebody else, who
holds the lock. -/
inductive Concludes (courier : Courier) (answer : Answer Step) (ev : Event) (c : Cache) :
    Answer Step × Cache → Prop where
  | recorded {ready : Cache} {b : Buffers} (drains : Drains courier c ready)
      (prompt : c.HasRoom → ready = c) (record : ready.engine.buffers.recordOwn ev = .ok b) :
      Concludes courier answer ev c (answer, ready.settled courier b)
  | waits (lock : c.lockHeld = true) (full : ¬ c.HasRoom) :
      Concludes courier answer ev c (.blocked, c)

theorem Arises.concludes (h : Arises s stage c) (hkind : ev.kind ≠ .read) (answer : Answer Step) :
    c.Concludes stage.courier answer ev (c.closing stage.courier answer (some ev)) := by
  rw [closing, if_neg hkind]
  by_cases hroom : c.HasRoom
  · obtain ⟨b, hb⟩ := Buffers.exists_recordOwn h.reachable.room.2 hroom ev
    rw [recordWrite_of_ok hb]
    exact .recorded (.none c) (fun _ => rfl) hb
  · cases hlock : c.lockHeld with
    | false =>
      obtain ⟨last, hlast⟩ := h.exists_recordWrite hlock ev
      obtain ⟨ready, b, hdrains, hb, rfl⟩ := recordWithin_eq_some hlast
      rw [hlast]
      exact .recorded hdrains (fun hfree => absurd hfree hroom) hb
    | true =>
      rw [recordWrite_of_full _ hlock hroom]
      exact .waits hlock hroom

theorem Supersedes.of_replaceIfMatch (h : Reachable s c) (hdead : c.engine.pool.held id = none)
    (ht : c.engine.store.replaceIfMatch key id c.engine.pool.next = some t) (fresh : Held) :
    c.Supersedes key fresh (count { c with engine :=
      { c.engine with store := t, pool := c.engine.pool.add key fresh } }
      fun n => { n with inserts := n.inserts + 1 }) where
  mapping := Store.get?_replaceIfMatch ht
  length := Store.size_replaceIfMatch ht
  made := Array.getElem?_eq_none (Nat.le_refl _)
  nodes := Pool.node?_add c.engine.pool key fresh
  values := (Acts.supersede hdead ht).getQuietly h.sound
  rest := rfl

theorem Drops.of_removeIfMatch (h : Reachable s c) (hdead : c.engine.pool.held id = none)
    (ht : c.engine.store.removeIfMatch key id = some t) :
    c.Drops key { c with engine := { c.engine with store := t } } where
  mapping := Store.get?_removeIfMatch ht
  length := h.sound.counted.size_removeIfMatch ht
  values k := by
    have hvalue := (Acts.drop (f := fun n => n) hdead ht).getQuietly h.sound k
    refine hvalue.trans ?_
    split
    · rename_i he
      rw [he, getQuietly_of_retired (Store.get?_of_removeIfMatch ht) hdead]
    · rfl
  rest := rfl

/-- An insertion takes the mapping over before it drains. -/
theorem Arises.insert_over_retired (h : Arises s stage c)
    (hk : c.engine.store.get? key = some id) (hdead : c.engine.pool.held id = none)
    (onLive : OnLive) {value : Value} {weight : Weight} (hw : c.weigher value = .ok weight) :
    ∃ taken, c.Supersedes key ⟨value, weight⟩ taken ∧ taken.Forgets id ∧
      taken.Concludes stage.courier (.value none) ⟨.add, c.engine.pool.next⟩
        ((onLive.call key value).run stage.courier c) := by
  have hweigh : c.weigh value = .ok ⟨value, weight⟩ := by rw [weigh, hw]
  obtain ⟨t, ht, hrun⟩ := insertNow_of_retired stage.courier onLive ⟨value, weight⟩ hk hdead
  have hchange : Course stage.courier c { c with engine :=
      { c.engine with store := t, pool := c.engine.pool.add key ⟨value, weight⟩ } } :=
    .change (.supersede ht) rfl
  have hcourse := hchange.trans (.count _ fun n => { n with inserts := n.inserts + 1 })
  have hsupersedes := Supersedes.of_replaceIfMatch h.reachable hdead ht ⟨value, weight⟩
  refine ⟨_, hsupersedes, ?_, ?_⟩
  · refine h.reachable.forgets hk hdead (hcourse.moves stage.moving) (fun k hne => ?_) ?_
    · rw [hsupersedes.mapping, if_neg hne]
    · rw [hsupersedes.mapping, if_pos rfl]
      exact fun he => Acts.ne_next h.reachable.sound hk (Option.some.inj he).symm
  · rw [run_insert, hweigh]
    dsimp only
    rw [hrun, answering_write .value (by simp)]
    exact (h.runs hcourse).concludes (by simp) _

/-- A removal takes the mapping away. -/
theorem Arises.remove_over_retired (h : Arises s stage c)
    (hk : c.engine.store.get? key = some id) (hdead : c.engine.pool.held id = none) :
    ∃ last, c.Drops key last ∧ last.Forgets id ∧
      (Call.remove key).run stage.courier c = (.value none, last) := by
  obtain ⟨t, ht, hrun⟩ := remove_of_retired stage.courier hk hdead
  have hcourse : Course stage.courier c { c with engine := { c.engine with store := t } } :=
    .change (.unmap ht) rfl
  have hdrops := Drops.of_removeIfMatch h.reachable hdead ht
  refine ⟨_, hdrops, ?_, congrArg (Reply.answering .value) hrun⟩
  refine h.reachable.forgets hk hdead (hcourse.moves stage.moving) (fun k hne => ?_) ?_
  · rw [hdrops.mapping, if_neg hne]
  · rw [hdrops.mapping, if_pos rfl]
    simp

/-- The calls that do not write where they find no value. -/
theorem calls_of_absent (courier : Courier) (h : c.getQuietly key = none) (value expected : Value) :
    (Call.get key).run courier c =
        (.value none, c.count fun n => { n with misses := n.misses + 1 }) ∧
      (Call.getQuietly key).run courier c = (.value none, c) ∧
      (Call.contains key).run courier c = (.flag false, c) ∧
      (Call.removeIf key expected).run courier c = (.flag false, c) ∧
      (c.Refuses (.replace key value) ((Call.replace key value).run courier c) ∨
        (Call.replace key value).run courier c = (.value none, c)) ∧
      (c.Refuses (.replaceIf key expected value)
          ((Call.replaceIf key expected value).run courier c) ∨
        (Call.replaceIf key expected value).run courier c = (.flag false, c)) := by
  refine ⟨?_, ?_, ?_, ?_, ?_, ?_⟩
  · show (Answer.value (c.get key).1, (c.get key).2) = _
    rw [get_of_absent h]
  · show (Answer.value (c.getQuietly key), c) = _
    rw [h]
  · show (Answer.flag (c.contains key), c) = _
    rw [contains_eq, h]
    rfl
  · rw [run_removeIf, removeIf_of_absent courier h]
    rfl
  · exact (replace_of_absent courier h value).imp_right (congrArg (Reply.answering .value))
  · rw [run_replaceIf]
    exact (replaceIf_of_absent courier h expected value).imp_right
      (congrArg (Reply.answering .flag))

/-- A key that is mapped to a retired node is absent to every call. An insertion answers so, and
takes the mapping over for a new node that is alive, counts one insertion and leaves the event of
the new node behind; whatever it drains comes after that. A removal takes the mapping away and does
nothing else. In either case the retired node is never mapped again. All other calls answer as for
an absent key and leave everything as it is, but that a read counts its miss; a replacement may have
its value refused by the weigher instead. -/
theorem retired_counts_as_absent (h : Arises s stage c)
    (hk : c.engine.store.get? key = some id) (hdead : c.engine.pool.held id = none) :
    (∀ (onLive : OnLive) (value : Value) (weight : Weight), c.weigher value = .ok weight →
      ∃ taken, c.Supersedes key ⟨value, weight⟩ taken ∧ taken.Forgets id ∧
        taken.Concludes stage.courier (.value none) ⟨.add, c.engine.pool.next⟩
          ((onLive.call key value).run stage.courier c)) ∧
    (∃ last, c.Drops key last ∧ last.Forgets id ∧
      (Call.remove key).run stage.courier c = (.value none, last)) ∧
    ∀ value expected,
      (Call.get key).run stage.courier c =
          (.value none, c.count fun n => { n with misses := n.misses + 1 }) ∧
        (Call.getQuietly key).run stage.courier c = (.value none, c) ∧
        (Call.contains key).run stage.courier c = (.flag false, c) ∧
        (Call.removeIf key expected).run stage.courier c = (.flag false, c) ∧
        (c.Refuses (.replace key value) ((Call.replace key value).run stage.courier c) ∨
          (Call.replace key value).run stage.courier c = (.value none, c)) ∧
        (c.Refuses (.replaceIf key expected value)
            ((Call.replaceIf key expected value).run stage.courier c) ∨
          (Call.replaceIf key expected value).run stage.courier c = (.flag false, c)) :=
  ⟨fun onLive _ _ hw => h.insert_over_retired hk hdead onLive hw, h.remove_over_retired hk hdead,
    fun value expected =>
      calls_of_absent stage.courier (getQuietly_of_retired hk hdead) value expected⟩

def leftBehind : List Op :=
  [.call (.put "a" "1"), .hold [.call (.put "b" "2"), .probe (.retire "b")]]

theorem retired_counts_as_absent_leftBehind :
    let c := (perform leftBehind { capacity := 2 : Settings }.empty).2
    c.engine.store.get? "b" = some 1 ∧ c.engine.pool.held 1 = none ∧ c.length = 2 ∧
      c.engine.deque.order = [0] ∧ c.engine.buffers.pending = 1 ∧
      (∃ taken, c.Supersedes "b" ⟨"3", 1⟩ taken ∧ taken.Forgets 1 ∧
        taken.Concludes Cache.deliver (.value none) ⟨.add, 2⟩
          ((Call.put "b" "3").run Cache.deliver c)) ∧
      (∃ last, c.Drops "b" last ∧ last.Forgets 1 ∧
        (Call.remove "b").run Cache.deliver c = (.value none, last)) ∧
      (Call.get "b").run Cache.deliver c =
        (.value none, c.count fun n => { n with misses := n.misses + 1 }) := by
  have harises : Arises { capacity := 2 } .top
      (perform leftBehind { capacity := 2 : Settings }.empty).2 := arises_perform rfl leftBehind
  have hfacts :
      let c := (perform leftBehind { capacity := 2 : Settings }.empty).2
      c.engine.store.get? "b" = some 1 ∧ c.engine.pool.held 1 = none ∧ c.length = 2 ∧
        c.engine.deque.order = [0] ∧ c.engine.buffers.pending = 1 ∧ c.engine.pool.next = 2 ∧
        c.weigher "3" = .ok 1 :=
    ⟨by cbv, by cbv, by cbv, by cbv, by cbv, by cbv, by cbv⟩
  generalize (perform leftBehind { capacity := 2 : Settings }.empty).2 = c at *
  obtain ⟨hmapped, hdead, hlength, horder, hpending, hnext, hweight⟩ := hfacts
  obtain ⟨hinsert, hremove, hothers⟩ := retired_counts_as_absent harises hmapped hdead
  have hput := hinsert .overwrite "3" 1 hweight
  rw [hnext] at hput
  exact ⟨hmapped, hdead, hlength, horder, hpending, hput, hremove, (hothers "" "").1⟩

end Cache

end BoundedCache
