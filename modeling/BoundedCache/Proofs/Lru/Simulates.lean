import BoundedCache.Proofs.Lru.Quiet

namespace BoundedCache.Cache

variable {r : Lru} {c next : Cache} {event : Event} {id : NodeId} {key : Key} {last fresh : Held}
  {p : Pool} {s : Store} {entries : List Entry} {capacity : Nat}

structure Shows (r : Lru) (c : Cache) : Prop where
  capacity : c.capacity = r.capacity
  lone : c.engine.buffers.Lone
  pending : c.engine.buffers.events.length = r.reads
  entries : (c.engine.applyAll c.engine.buffers.events).recency = r.entries

structure Mirrors (r : Lru) (c : Cache) : Prop extends Tidy [] c, AtEase c, Shows r c where
  quiet : c.Quiet
  weigher : c.weigher = r.weigher
  touch : c.engine.touchOnUpdate = r.touchOnUpdate
  limit : c.engine.buffers.room = Lru.readLimit

/-- A call that has ended in the cache has had the effect that it has on the reference. -/
structure Simulates (c : Cache) (done : Answer Step × Cache) (effect : Lru.Effect) : Prop where
  answer : done.1 = effect.answer
  evicts : c.Evicts done.2 effect.victims
  shows : done.2.Shows effect.after

inductive Finds (r : Lru) (c : Cache) (key : Key) : Prop where
  | absent (mapped : c.engine.store.get? key = none) (sight : c.sight key = .unmapped)
      (found : r.get? key = none)
  | present (id : NodeId) (seen : Sight) (mapped : c.engine.store.get? key = some id)
      (loaded : c.engine.pool.load id = some seen) (sight : c.sight key = .live id seen)
      (alive : c.engine.pool.held id = some seen.held) (keyed : c.engine.pool.key id = key)
      (found : r.get? key = some seen.held.value)

/-- A settled engine that has evicted down to the capacity is in step with the reference. -/
theorem shows_evict {e : Engine} (h : Engine.Accounted [] e) (hb : ∀ i, e.buffers.queue i = [])
    (hw : ∀ id held, e.pool.held id = some held → r.weigher held.value = .ok held.weight)
    (he : e.recency = entries) (hc : c.engine = (e.evict r.capacity).2)
    (hcap : c.capacity = r.capacity) :
    (e.evict r.capacity).1 = (Lru.evict r.weigher r.capacity entries).1 ∧
      Shows { r with entries := (Lru.evict r.weigher r.capacity entries).2, reads := 0 } c := by
  have hevict := h.recency_evict hw r.capacity
  have hleft : c.engine.buffers = e.buffers := by
    rw [hc]
    exact Engine.buffers_evictUpTo ..
  have hnone : c.engine.buffers.events = [] := by
    refine List.eq_nil_iff_forall_not_mem.mpr fun ev hev => ?_
    obtain ⟨i, _, hi⟩ := Buffers.mem_events_iff.mp hev
    rw [hleft, hb i] at hi
    cases hi
  rw [he] at hevict
  rw [← hevict]
  refine ⟨rfl, hcap, fun i _ => ?_, ?_, ?_⟩
  · rw [hleft, hb i]
  · rw [hnone, List.length_nil]
  · rw [hnone, hc]
    rfl

namespace Mirrors

/-- The reads that wait cover what there is to cover. -/
theorem covers (h : c.Mirrors r) : c.engine.Accounted c.engine.buffers.events := h.accounted

/-- With the reads replayed nothing is pending. -/
theorem replayed (h : c.Mirrors r) :
    Engine.Accounted [] (c.engine.applyAll c.engine.buffers.events) :=
  h.covers.settle

theorem finds (h : c.Mirrors r) (key : Key) : Finds r c key := by
  cases hk : c.engine.store.get? key with
  | none =>
    have hunmapped : (c.engine.applyAll c.engine.buffers.events).store.get? key = none := by
      rw [Engine.store_applyAll, hk]
    have hfind := h.replayed.find?_recency_eq_none hunmapped
    rw [h.entries] at hfind
    exact .absent hk (sight_eq_unmapped_iff.mpr hk) (by simp [Lru.get?, hfind])
  | some id =>
    obtain ⟨last, hl⟩ := h.accounted.alive hk
    obtain ⟨seen, hload⟩ : ∃ seen, c.engine.pool.load id = some seen := by
      rw [← Option.ne_none_iff_exists', Ne, Pool.load_eq_none_iff, hl]
      simp
    have hheld := Pool.held_of_load hload
    have hkey := h.accounted.store.keyed key id hk
    have halive : (c.engine.applyAll c.engine.buffers.events).pool.held id = some seen.held := by
      rw [Engine.pool_applyAll, hheld]
    have hfind := h.replayed.find?_recency halive
    rw [h.entries, Engine.pool_applyAll, hkey] at hfind
    exact .present id seen hk hload (by simp [Cache.sight, hk, hload]) hheld hkey
      (by simp [Lru.get?, hfind])

/-- The live pairs are those of the reference. -/
theorem live_perm (h : c.Mirrors r) : c.engine.live.Perm r.entries := by
  have hperm := h.replayed.perm_recency
  rw [h.entries, Engine.live, Engine.pool_applyAll, Engine.store_applyAll] at hperm
  exact hperm

theorem length_eq (h : c.Mirrors r) : c.length = r.entries.length := by
  rw [length, ← h.accounted.length_live, h.live_perm.length_eq]

theorem weight_eq (h : c.Mirrors r) : c.published = Lru.weight r.weigher r.entries := by
  have hweight := h.replayed.weight_recency (h.weighed_applyAll h.weigher _)
  rw [h.entries, (Engine.applyAll_reads h.accounted.deque h.reads).2, ← h.published] at hweight
  exact hweight.symm

/-- A call that changes nothing but counters. -/
theorem idle (h : c.Mirrors r) (f : Counters → Counters) (answer : Answer Step) :
    Simulates c (answer, c.count f) ⟨answer, [], r⟩ :=
  ⟨rfl, .of_eq rfl rfl, ⟨h.capacity, h.lone, h.pending, h.entries⟩⟩

/-- A read that is recorded counts, and one that is dropped does not. -/
theorem read (h : c.Mirrors r) (hl : c.engine.pool.held id = some last) (f : Counters → Counters)
    (answer : Answer Step) :
    Simulates c (answer, (c.count f).recordRead id)
      ⟨answer, [], r.read (c.engine.pool.key id) last.value⟩ := by
  have hevents := h.lone.events_eq h.count
  have hpending := h.pending
  have hlimit := h.limit
  unfold recordRead
  rw [engine_count]
  cases hb : c.engine.buffers.recordOwn ⟨.read, id⟩ with
  | ok b =>
    obtain ⟨_, hroom, _⟩ := Buffers.record_eq_ok hb
    rw [← hevents] at hroom
    obtain ⟨hlone, hrecorded⟩ := h.lone.record hb
    have halive : (c.engine.applyAll c.engine.buffers.events).pool.held id = some last := by
      rw [Engine.pool_applyAll, hl]
    have hread := h.replayed.recency_read halive
    rw [Engine.pool_applyAll, h.entries] at hread
    rw [Lru.read, if_pos (by omega)]
    refine ⟨rfl, .of_eq rfl rfl, h.capacity, hlone, ?_, ?_⟩
    · show b.events.length = _
      rw [hrecorded, List.length_append, List.length_singleton, h.pending]
    · show Engine.recency (Engine.applyAll b.events { c.engine with buffers := b }) = _
      rw [hrecorded, Engine.applyAll_withBuffers, Engine.applyAll_append]
      exact hread
  | error back =>
    have hfull := Buffers.record_eq_error_iff.mp ⟨back, hb⟩
    have hcount : c.engine.buffers.own < c.engine.buffers.count := Buffers.own_lt h.count
    rw [← hevents] at hfull
    rw [Lru.read, if_neg (by omega)]
    exact ⟨rfl, .of_eq rfl rfl, h.capacity, h.lone, h.pending, h.entries⟩

/-- A write of which the reference knows what it makes of the pairs. -/
theorem write {α : Type} {call : Call} {was : Answer Step} (h : c.Mirrors r)
    (hw : c.Writes call was event next)
    (he : (next.engine.applyAll (c.engine.buffers.events ++ [event])).recency = entries)
    (g : α → Answer Step) (result : α) :
    Simulates c (Reply.answering g (next.finishWrite Cache.deliver event result))
      (r.write (g result) entries) := by
  have htidy : next.Tidy [event] := h.toTidy.write hw
  have hsame : next.engine.buffers = c.engine.buffers ∧ next.relay = c.relay ∧
      next.capacity = c.capacity ∧ next.drains = c.drains := by
    cases hw <;> exact ⟨rfl, rfl, rfl, rfl⟩
  obtain ⟨hbuffers, hrelay, hcapacity, hdrains⟩ := hsame
  obtain ⟨c', b, hr, hempty, hengine, hcap, hevicts⟩ := recordWrite_quiet
    (hw.evolves.proper h.quiet) (h.toAtEase.of_eq hrelay) htidy (hbuffers ▸ h.lone)
  rw [hbuffers, hcapacity, h.capacity] at hengine hevicts
  have hsettled := htidy.swap.settle
  rw [hbuffers] at hsettled
  obtain ⟨hvictims, hshows⟩ := shows_evict (r := r) (c := c')
    (e := { next.engine.applyAll (c.engine.buffers.events ++ [event]) with buffers := b })
    (hsettled.of_eq rfl rfl rfl) hempty
    (htidy.weighed_applyAll (hw.evolves.weigher.trans h.weigher) _) he hengine
    (hcap.trans (hcapacity.trans h.capacity))
  have htold : c.Evicts c' (Lru.evict r.weigher r.capacity entries).1 := by
    rw [← hvictims]
    refine (Evicts.of_eq (congrArg (·.notices) hrelay) hdrains).trans ?_ hevicts
    rw [hrelay]
  unfold finishWrite
  rw [hr]
  exact ⟨rfl, htold, hshows⟩

variable {α : Type}

theorem update (h : c.Mirrors r) (hw : c.weigher fresh.value = .ok fresh.weight)
    (hq : c.engine.pool.Rewrites p id last (some fresh)) (g : α → Answer Step) (result : α) :
    Simulates c
      (Reply.answering g
        ((count { c with engine := { c.engine with pool := p } }
          fun n => { n with updates := n.updates + 1 }).finishWrite
            Cache.deliver ⟨.update, id⟩ result))
      (r.write (g result) (r.overwritten (c.engine.pool.key id) fresh.value)) := by
  have hwrites : c.Writes (.put (c.engine.pool.key id) fresh.value) (.value (some last.value))
      ⟨.update, id⟩ _ := .replace rfl rfl hw hq
  exact h.write hwrites (h.covers.recency_update hq h.entries.symm h.touch.symm) g result

theorem insert (h : c.Mirrors r) (hw : c.weigher fresh.value = .ok fresh.weight)
    (ht : c.engine.store.insertIfAbsent key c.engine.pool.next = .ok s)
    (g : α → Answer Step) (result : α) :
    Simulates c
      (Reply.answering g
        ((count { c with engine :=
          { c.engine with pool := c.engine.pool.add key fresh, store := s } }
            fun n => { n with inserts := n.inserts + 1 }).finishWrite
              Cache.deliver ⟨.add, c.engine.pool.next⟩ result))
      (r.write (g result) (r.entries ++ [⟨key, fresh.value⟩])) := by
  have hwrites : c.Writes (.put key fresh.value) (.value none) ⟨.add, c.engine.pool.next⟩ _ :=
    .insert rfl rfl hw ht
  have hrecency := h.covers.recency_insert key fresh s
  rw [h.entries] at hrecency
  exact h.write hwrites hrecency g result

theorem retire (h : c.Mirrors r) (hq : c.engine.pool.Rewrites p id last none)
    (ht : c.engine.store.removeIfMatch (c.engine.pool.key id) id = some s)
    (g : α → Answer Step) (result : α) :
    Simulates c
      (Reply.answering g
        ((count { c with engine := { c.engine with pool := p, store := s } }
          fun n => { n with removals := n.removals + 1 }).finishWrite
            Cache.deliver ⟨.remove, id⟩ result))
      (r.write (g result) (Lru.without (c.engine.pool.key id) r.entries)) := by
  have hwrites : c.Writes (.remove (c.engine.pool.key id)) (.value (some last.value))
      ⟨.remove, id⟩ _ := .retire rfl rfl hq ht
  have hrecency := h.covers.recency_retire hq s
  rw [h.entries] at hrecency
  exact h.write hwrites hrecency g result

/-- A drain down to any capacity. -/
theorem drain (h : c.Mirrors r) (capacity : Nat) (answer : Answer Step) :
    Simulates c (answer, ({ c with capacity } : Cache).drain Cache.deliver)
      ({ r with capacity }.write answer r.entries) := by
  obtain ⟨hengine, hcap, hevicts⟩ := drain_quiet (c := { c with capacity })
    ((Evolves.recap c capacity).proper h.quiet) (h.toAtEase.of_eq rfl)
  have hreplay := Engine.replay_eq c.engine h.sound
  obtain ⟨hvictims, hshows⟩ := shows_evict (r := { r with capacity })
    (e := { c.engine.applyAll c.engine.buffers.events with buffers := c.engine.buffers.emptied })
    (h.replayed.of_eq rfl rfl rfl) (fun i => Buffers.queue_emptied _ i)
    (h.weighed_applyAll h.weigher _) h.entries (hengine.trans (by rw [Engine.run, hreplay])) hcap
  have htold : c.Evicts (({ c with capacity } : Cache).drain Cache.deliver)
      (Lru.evict r.weigher capacity r.entries).1 := by
    rw [← hvictims]
    rw [Engine.run, hreplay] at hevicts
    exact ⟨hevicts.told, hevicts.drains⟩
  exact ⟨rfl, htold, hshows⟩

/-- A clearing counts the pairs and leaves none. -/
theorem clear (h : c.Mirrors r) :
    Simulates c (.count c.cleared.1, (Cache.deliver c.cleared.2).2)
      ⟨.count r.entries.length, [], { r with entries := [], reads := 0 }⟩ := by
  have hquiet := (Evolves.cleared c).proper h.quiet
  have hcount : c.engine.clear.1 = r.entries.length := by
    rw [h.accounted.clear_count, h.live_perm.length_eq]
  obtain ⟨hvoid, hbuffers⟩ := h.toCovered.swap.clear h.sound
  have hempty (i : Nat) : c.engine.clear.2.buffers.queue i = [] := by
    rw [hbuffers]
    exact Buffers.queue_emptied _ i
  have hevents : c.engine.clear.2.buffers.events = [] := by
    rw [hbuffers]
    exact Buffers.events_emptied _
  have hnone : c.engine.clear.2.recency = [] := by
    rw [Engine.recency, hvoid.linked.order_eq, List.map_nil, List.filterMap_nil]
  rw [cleared_eq] at hquiet ⊢
  rw [hcount]
  generalize c.engine.clear.2 = e at hquiet hempty hevents hnone ⊢
  have hease : AtEase { c with engine := e, published := e.deque.weightedSize } :=
    h.toAtEase.of_eq rfl
  obtain ⟨relay, hr, htells⟩ := deliver_quiet hquiet
  rw [hr]
  refine ⟨rfl, ⟨?_, [], (List.append_nil _).symm, rfl⟩, h.capacity, fun i _ => hempty i, ?_, ?_⟩
  · rw [ite_self, List.append_nil]
    refine (htells hease.attended).trans ?_
    rw [hease.queue, List.append_nil]
    rfl
  · exact congrArg List.length hevents
  · rw [hevents]
    exact hnone

end Mirrors

end BoundedCache.Cache
