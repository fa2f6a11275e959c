import Mathlib
import BoundedCache.Proofs.Cache.Fidelity
import BoundedCache.Proofs.Lru.Refinement

namespace BoundedCache

def Call.basic : Call → Bool
  | .get _ | .put .. | .remove _ => true
  | _ => false

theorem Call.diagnostic_of_basic {call : Call} (h : call.basic = true) :
    call.diagnostic = false := by
  cases call with
  | get | put | remove => rfl
  | _ => cases h

namespace Lru

variable {r q : Lru} {small large entries : List Entry} {room more : Nat} {key : Key}
  {value : Value} {call : Call}

theorem weight_unit (entries : List Entry) : weight Weigher.unit entries = entries.length := by
  induction entries with
  | nil => rfl
  | cons pair rest ih =>
    have hrest : weight Weigher.unit (pair :: rest) = 1 + weight Weigher.unit rest := rfl
    rw [hrest, ih, List.length_cons, Nat.add_comm]

/-- With unit weights, what is too much at the front is evicted. -/
theorem evict_unit (capacity : Nat) (entries : List Entry) :
    (evict Weigher.unit capacity entries).2 = entries.drop (entries.length - capacity) := by
  induction entries with
  | nil => exact List.drop_nil.symm
  | cons pair rest ih =>
    rw [evict, weight_unit]
    split
    · rename_i hfits
      rw [Nat.sub_eq_zero_of_le hfits, List.drop_zero]
    · rename_i hover
      rw [List.length_cons] at hover
      rw [List.length_cons, Nat.sub_add_comm (by omega), List.drop_succ_cons]
      exact ih

theorem without_of_absent (h : key ∉ entries.map (·.key)) : without key entries = entries := by
  refine List.filter_eq_self.mpr fun pair hm => ?_
  have hne : pair.key ≠ key := fun he => h (he ▸ List.mem_map_of_mem hm)
  simp [hne]

theorem absent_without (key : Key) (entries : List Entry) :
    key ∉ (without key entries).map (·.key) := by
  intro h
  obtain ⟨pair, hm, he⟩ := List.mem_map.mp h
  simpa [he] using (List.mem_filter.mp hm).2

theorem distinct_without (h : (entries.map (·.key)).Nodup) (key : Key) :
    ((without key entries).map (·.key)).Nodup :=
  h.sublist (List.filter_sublist.map _)

/-- Taking out a key that is there takes out one pair. -/
theorem length_without (hd : (entries.map (·.key)).Nodup) (h : key ∈ entries.map (·.key)) :
    (without key entries).length + 1 = entries.length := by
  induction entries with
  | nil => cases h
  | cons pair rest ih =>
    obtain ⟨hout, hrest⟩ := List.nodup_cons.mp hd
    by_cases he : pair.key = key
    · have hkept : without key (pair :: rest) = rest := by
        rw [without, List.filter_cons_of_neg (by simp [he])]
        exact without_of_absent (he ▸ hout)
      rw [hkept, List.length_cons]
    · have hkept : without key (pair :: rest) = pair :: without key rest :=
        List.filter_cons_of_pos (by simp [he])
      have hm : key ∈ rest.map (·.key) := (List.mem_cons.mp h).resolve_left (Ne.symm he)
      rw [hkept, List.length_cons, List.length_cons, ih hrest hm]

/-- A key that moves to the back takes the room that it had. -/
theorem length_moved (hd : (entries.map (·.key)).Nodup) (h : key ∈ entries.map (·.key))
    (value : Value) : (without key entries ++ [(⟨key, value⟩ : Entry)]).length = entries.length := by
  rw [List.length_append, List.length_singleton, length_without hd h]

theorem get?_eq_none_iff : r.get? key = none ↔ key ∉ r.entries.map (·.key) := by
  simp [get?, List.find?_eq_none]

theorem mem_of_get? (h : r.get? key = some value) : ⟨key, value⟩ ∈ r.entries := by
  obtain ⟨pair, hfind, rfl⟩ := Option.map_eq_some_iff.mp h
  have hkey : pair.key = key := by simpa using List.find?_some hfind
  rw [← hkey]
  exact List.mem_of_find?_eq_some hfind

theorem key_mem_of_get? (h : r.get? key = some value) : key ∈ r.entries.map (·.key) :=
  List.mem_map_of_mem (f := (·.key)) (mem_of_get? h)

theorem get?_of_mem (hd : (r.entries.map (·.key)).Nodup) (h : ⟨key, value⟩ ∈ r.entries) :
    r.get? key = some value := by
  cases hg : r.get? key with
  | none => exact absurd (List.mem_map_of_mem h) (get?_eq_none_iff.mp hg)
  | some other =>
    have hsame := List.inj_on_of_nodup_map hd (mem_of_get? hg) h rfl
    cases hsame
    rfl

/-- The smaller list stands in the bigger one in the same order, and the bigger one is ahead by no
more pairs than it has more room. -/
structure Nested (room more : Nat) (small large : List Entry) : Prop where
  sublist : small.Sublist large
  lead : large.length + room ≤ small.length + more
  distinct : (large.map (·.key)).Nodup

namespace Nested

theorem without (h : Nested room more small large) (key : Key) :
    Nested room more (without key small) (without key large) where
  sublist := h.sublist.filter _
  lead := by
    have hlead := h.lead
    have hkeys := h.sublist.map (·.key)
    by_cases hlarge : key ∈ large.map (·.key)
    · have hcut := length_without h.distinct hlarge
      by_cases hsmall : key ∈ small.map (·.key)
      · have hcut' := length_without (h.distinct.sublist hkeys) hsmall
        omega
      · rw [without_of_absent hsmall]
        omega
    · have hsmall : key ∉ small.map (·.key) := fun hm => hlarge (hkeys.subset hm)
      rw [without_of_absent hlarge, without_of_absent hsmall]
      exact hlead
  distinct := distinct_without h.distinct key

/-- The same pair comes in at the back of both. -/
theorem push (h : Nested room more small large) (hout : key ∉ large.map (·.key)) (value : Value) :
    Nested room more (small ++ [⟨key, value⟩]) (large ++ [⟨key, value⟩]) where
  sublist := h.sublist.append (List.Sublist.refl _)
  lead := by
    have hlead := h.lead
    simp only [List.length_append, List.length_singleton]
    omega
  distinct := by
    rw [List.map_append, List.nodup_append]
    refine ⟨h.distinct, List.nodup_singleton _, fun other hm last hlast he => hout ?_⟩
    rw [List.map_singleton, List.mem_singleton] at hlast
    rw [he, hlast] at hm
    exact hm

/-- A pair that only the bigger list has moves to its back. -/
theorem refresh (h : Nested room more small large) (hsmall : key ∉ small.map (·.key))
    (hlarge : key ∈ large.map (·.key)) (value : Value) :
    Nested room more small (Lru.without key large ++ [⟨key, value⟩]) where
  sublist := by
    have hsub := (h.without key).sublist
    rw [without_of_absent hsmall] at hsub
    exact hsub.trans (List.sublist_append_left _ _)
  lead := by
    rw [length_moved h.distinct hlarge]
    exact h.lead
  distinct := ((h.without key).push (absent_without key large) value).distinct

/-- Each list is cut down to its room, the smaller one by at least as much. -/
theorem cut (h : Nested room more small large) :
    Nested room more (small.drop (small.length - room)) (large.drop (large.length - more)) where
  sublist := by
    have hlead := h.lead
    have hmore : large.length - more ≤ small.length - room := by omega
    exact (List.drop_sublist_drop_left small hmore).trans (h.sublist.drop _)
  lead := by
    have hlead := h.lead
    simp only [List.length_drop]
    omega
  distinct := h.distinct.sublist ((List.drop_sublist _ _).map _)

end Nested

structure Plain (r : Lru) : Prop where
  weigher : r.weigher = Weigher.unit
  touch : r.touchOnUpdate = true
  fits : r.entries.length ≤ r.capacity

def Counts (r : Lru) (call : Call) : Prop :=
  ∀ key value, call = .get key → r.get? key = some value → r.reads < readLimit

namespace Plain

theorem step_put (h : r.Plain) (key : Key) (value : Value) :
    (r.step (.put key value)).after =
      let pushed : List Entry := without key r.entries ++ [⟨key, value⟩]
      { r with entries := pushed.drop (pushed.length - r.capacity), reads := 0 } := by
  have hweigh : r.weigher value = .ok 1 := by rw [h.weigher]; rfl
  have hwrite (answer : Answer Step) (entries : List Entry) : (r.write answer entries).after =
      { r with entries := entries.drop (entries.length - r.capacity), reads := 0 } := by
    simp only [write, h.weigher, evict_unit]
  simp only [step, weighing, hweigh]
  cases hg : r.get? key with
  | none => rw [hwrite, without_of_absent (get?_eq_none_iff.mp hg)]
  | some last => rw [hwrite, overwritten, if_pos h.touch]

/-- Taking a pair out evicts nothing. -/
theorem step_remove (h : r.Plain) (key : Key) :
    ∃ n, (r.step (.remove key)).after =
      { r with entries := without key r.entries, reads := n } := by
  rw [step]
  cases hg : r.get? key with
  | none =>
    rw [without_of_absent (get?_eq_none_iff.mp hg)]
    exact ⟨r.reads, rfl⟩
  | some last =>
    have hfits : weight r.weigher (without key r.entries) ≤ r.capacity := by
      rw [h.weigher, weight_unit]
      exact (List.length_filter_le _ _).trans h.fits
    refine ⟨0, ?_⟩
    simp only [write, evict_of_fits hfits]

theorem step_get (hc : r.Counts (.get key)) (hg : r.get? key = some value) :
    (r.step (.get key)).after =
      { r with entries := without key r.entries ++ [⟨key, value⟩], reads := r.reads + 1 } := by
  simp only [step, hg, read, if_pos (hc key value rfl hg)]

end Plain

structure Within (r q : Lru) : Prop where
  nested : Nested r.capacity q.capacity r.entries q.entries
  plain : r.Plain
  plain' : q.Plain

namespace Within

theorem replace (h : r.Within q) (hn : Nested r.capacity q.capacity small large)
    (hs : small.length ≤ r.capacity) (hl : large.length ≤ q.capacity) (m n : Nat) :
    Within { r with entries := small, reads := m } { q with entries := large, reads := n } where
  nested := hn
  plain := ⟨h.plain.weigher, h.plain.touch, hs⟩
  plain' := ⟨h.plain'.weigher, h.plain'.touch, hl⟩

/-- What is found in the smaller one is found in the bigger one. -/
theorem get? (h : r.Within q) (hg : r.get? key = some value) : q.get? key = some value :=
  get?_of_mem h.nested.distinct (h.nested.sublist.subset (mem_of_get? hg))

/-- A call that drops no read on either side keeps the one within the other. -/
theorem step (h : r.Within q) (hcall : call.basic = true) (hr : r.Counts call)
    (hq : q.Counts call) : Within (r.step call).after (q.step call).after := by
  have hcut (capacity : Nat) (entries : List Entry) :
      (entries.drop (entries.length - capacity)).length ≤ capacity := by
    rw [List.length_drop]
    omega
  cases call with
  | put key value =>
    rw [h.plain.step_put, h.plain'.step_put]
    have hpushed := (h.nested.without key).push (absent_without key q.entries) value
    exact h.replace hpushed.cut (hcut _ _) (hcut _ _) 0 0
  | remove key =>
    obtain ⟨m, hm⟩ := h.plain.step_remove key
    obtain ⟨n, hn⟩ := h.plain'.step_remove key
    rw [hm, hn]
    exact h.replace (h.nested.without key) ((List.length_filter_le _ _).trans h.plain.fits)
      ((List.length_filter_le _ _).trans h.plain'.fits) m n
  | get key =>
    have hdistinct := h.nested.distinct.sublist (h.nested.sublist.map _)
    cases hgq : q.get? key with
    | none =>
      cases hgr : r.get? key with
      | none =>
        simp only [Lru.step, hgr, hgq]
        exact h
      | some value =>
        rw [h.get? hgr] at hgq
        cases hgq
    | some value =>
      have hfits' := (length_moved h.nested.distinct (key_mem_of_get? hgq) value).trans_le
        h.plain'.fits
      rw [Plain.step_get hq hgq]
      cases hgr : r.get? key with
      | none =>
        have hrefreshed := h.nested.refresh (get?_eq_none_iff.mp hgr)
          (key_mem_of_get? hgq) value
        simp only [Lru.step, hgr]
        exact h.replace hrefreshed h.plain.fits hfits' r.reads _
      | some other =>
        cases (h.get? hgr).symm.trans hgq
        have hfits := (length_moved hdistinct (key_mem_of_get? hgr) value).trans_le h.plain.fits
        rw [Plain.step_get hr hgr]
        exact h.replace ((h.nested.without key).push (absent_without key q.entries) value)
          hfits hfits' _ _
  | _ => cases hcall

end Within

end Lru

namespace Cache

variable {r q : Lru} {c c' : Cache} {call : Call}

/-- A read that the cache does not drop counts in the reference. -/
theorem Mirrors.counts (h : c.Mirrors r)
    (hd : (call.run Cache.deliver c).2.counters.droppedReads = c.counters.droppedReads) :
    r.Counts call := by
  rintro key value rfl hg
  have hkept : (c.get key).2.counters.droppedReads = c.counters.droppedReads := hd
  unfold Cache.get lookup at hkept
  rcases h.finds key with ⟨_, _, hfound⟩ | ⟨id, seen, _, _, hsight, _, _, _⟩
  · rw [hfound] at hg
    cases hg
  · simp only [hsight, recordRead] at hkept
    rw [engine_count] at hkept
    cases hb : c.engine.buffers.recordOwn ⟨.read, id⟩ with
    | ok b =>
      obtain ⟨_, hroom, _⟩ := Buffers.record_eq_ok hb
      rw [← h.lone.events_eq h.count, h.pending, h.limit] at hroom
      exact hroom
    | error back =>
      simp only [hb] at hkept
      exact absurd hkept (Nat.succ_ne_self _)

/-- The count of dropped reads never goes down. -/
theorem droppedReads_le_perform (calls : List Call) (hq : c.Quiet) :
    c.counters.droppedReads ≤ (perform (calls.map .call) c).2.counters.droppedReads := by
  have hops : Op.allWithin .uncontended (calls.map .call) = true := by
    induction calls with
    | nil => rfl
    | cons call rest ih => exact ih
  have hlawful := tracks_relays.lawful (steady_deliver .uncontended) fun c hp => relays_deliver hp
  obtain ⟨_, _, hrelays⟩ := perform_spec hlawful hops (hq.proper _)
  exact hrelays.drops

/-- What is live in one cache is live in another one. -/
theorem Mirrors.live_subset (h : c.Mirrors r) (h' : c'.Mirrors q) (hin : r.Within q) :
    c.engine.live ⊆ c'.engine.live :=
  fun _ hm => h'.live_perm.mem_iff.mpr (hin.nested.sublist.subset (h.live_perm.mem_iff.mp hm))

end Cache

def Report.HitsIn (x y : Report) : Prop :=
  ∀ key value, x.step.act = .call (.get key) → x.step.answer = .value (some value) →
    y.step.act = .call (.get key) ∧ y.step.answer = .value (some value)

namespace Cache

variable {r q : Lru} {c c' small large : Cache} {call : Call} {calls : List Call}
  {s t : Settings}

/-- A `get` that hits in the smaller cache hits in the bigger one. -/
theorem Simulates.hitsIn {done done' : Answer Step × Cache} (h : Simulates c done (r.step call))
    (h' : Simulates c' done' (q.step call)) (hin : r.Within q)
    {notices notices' : List (Notice (List Step))} {drains drains' : List DrainRecord} :
    Report.HitsIn ⟨done.2.step (.call call) done.1 none, notices, drains⟩
      ⟨done'.2.step (.call call) done'.1 none, notices', drains'⟩ := by
  intro key value hact hanswer
  cases hact
  have hsmall : (r.step (.get key)).answer = .value (some value) := h.answer.symm.trans hanswer
  rw [Lru.step] at hsmall
  cases hg : r.get? key with
  | none => simp [hg] at hsmall
  | some found =>
    simp only [hg, Answer.value.injEq, Option.some.injEq] at hsmall
    subst hsmall
    have hlarge : (q.step (.get key)).answer = .value (some found) := by
      simp only [Lru.step, hin.get? hg]
    exact ⟨rfl, h'.answer.trans hlarge⟩

/-- Every run of calls that drops no read keeps the smaller cache within the bigger one. -/
theorem nested_perform (h : c.Mirrors r) (h' : c'.Mirrors q) (hin : r.Within q)
    (hcalls : ∀ call ∈ calls, call.basic = true)
    (hd : (perform (calls.map .call) c).2.counters.droppedReads = c.counters.droppedReads)
    (hd' : (perform (calls.map .call) c').2.counters.droppedReads = c'.counters.droppedReads) :
    (∀ done, done <+: calls → (perform (done.map .call) c).2.engine.live ⊆
      (perform (done.map .call) c').2.engine.live) ∧
    List.Forall₂ Report.HitsIn (perform (calls.map .call) c).1 (perform (calls.map .call) c').1 := by
  induction calls generalizing c c' r q with
  | nil =>
    refine ⟨fun done hdone => ?_, .nil⟩
    cases List.prefix_nil.mp hdone
    exact h.live_subset h' hin
  | cons call rest ih =>
    obtain ⟨hcall, hrest⟩ := List.forall_mem_cons.mp hcalls
    obtain ⟨hsim, hnext, -⟩ := h.step (Call.diagnostic_of_basic hcall)
    obtain ⟨hsim', hnext', -⟩ := h'.step (Call.diagnostic_of_basic hcall)
    -- No read was dropped by this call, and none later.
    have hfirst := droppedReads_le_perform [call] h.quiet
    have hfirst' := droppedReads_le_perform [call] h'.quiet
    have hlater := droppedReads_le_perform rest hnext.quiet
    have hlater' := droppedReads_le_perform rest hnext'.quiet
    have hkept := Nat.le_antisymm (hlater.trans hd.le) hfirst
    have hkept' := Nat.le_antisymm (hlater'.trans hd'.le) hfirst'
    obtain ⟨hlive, hhits⟩ := ih hnext hnext' (hin.step hcall (h.counts hkept) (h'.counts hkept'))
      hrest (hd.trans hkept.symm) (hd'.trans hkept'.symm)
    refine ⟨fun done hdone => ?_, .cons (hsim.hitsIn hsim' hin) hhits⟩
    cases done with
    | nil => exact h.live_subset h' hin
    | cons first later =>
      obtain ⟨rfl, hlaterPrefix⟩ := List.cons_prefix_cons.mp hdone
      exact hlive later hlaterPrefix

/-- LRU inclusion: if every value weighs one and updates touch, and neither run drops a read, then
after every call what is live in the cache with less room is live in the one with more, with the
same value; and every `get` that hits in the former hits in the latter, with the same value. -/
theorem larger_includes (hbuild : s.build = .ok small) (hbuild' : t.build = .ok large)
    (hroom : s.capacity ≤ t.capacity)
    (hweigher : s.weigher = Weigher.unit) (hweigher' : t.weigher = Weigher.unit)
    (htouch : s.touchOnUpdate = true) (htouch' : t.touchOnUpdate = true)
    (hlistener : ∀ l ∈ s.listener, l.Passive) (hlistener' : ∀ l ∈ t.listener, l.Passive)
    (hcalls : ∀ call ∈ calls, call.basic = true)
    (hdrops : (perform (calls.map .call) small).2.metrics.droppedReads = 0)
    (hdrops' : (perform (calls.map .call) large).2.metrics.droppedReads = 0) :
    (∀ done, done <+: calls → (perform (done.map .call) small).2.engine.live ⊆
      (perform (done.map .call) large).2.engine.live) ∧
    List.Forall₂ Report.HitsIn (perform (calls.map .call) small).1
      (perform (calls.map .call) large).1 := by
  obtain ⟨_, rfl⟩ := Settings.eq_empty_of_build hbuild
  obtain ⟨_, rfl⟩ := Settings.eq_empty_of_build hbuild'
  have hnested : Lru.Nested s.capacity t.capacity [] [] :=
    ⟨.slnil, by simpa using hroom, List.nodup_nil⟩
  have hin : s.reference.Within t.reference :=
    ⟨hnested, ⟨hweigher, htouch, Nat.zero_le _⟩, ⟨hweigher', htouch', Nat.zero_le _⟩⟩
  exact nested_perform (mirrors_empty s hlistener) (mirrors_empty t hlistener') hin hcalls hdrops
    hdrops'

/-- With room for two entries, the first read of `a` misses and the second write to it inserts; with
room for three, the one hits and the other updates. -/
def diverging : List Call :=
  [.put "a" "1", .put "b" "2", .put "c" "3", .get "a", .get "b", .put "a" "4", .remove "b",
    .put "c" "5", .put "d" "6", .get "a", .get "c"]

def roomFor (capacity : Nat) : Settings := { capacity }

theorem larger_includes_diverging :
    (perform (diverging.map .call) (roomFor 2).empty).2.metrics.droppedReads = 0 ∧
      (perform (diverging.map .call) (roomFor 3).empty).2.metrics.droppedReads = 0 ∧
      (∀ done, done <+: diverging →
        (perform (done.map .call) (roomFor 2).empty).2.engine.live ⊆
          (perform (done.map .call) (roomFor 3).empty).2.engine.live) ∧
      List.Forall₂ Report.HitsIn (perform (diverging.map .call) (roomFor 2).empty).1
        (perform (diverging.map .call) (roomFor 3).empty).1 := by
  have htwo : (perform (diverging.map .call) (roomFor 2).empty).2.metrics.droppedReads = 0 := by
    decide +kernel
  have hthree : (perform (diverging.map .call) (roomFor 3).empty).2.metrics.droppedReads = 0 := by
    decide +kernel
  have hcalls : ∀ call ∈ diverging, call.basic = true := by decide
  have hsilent (n : Nat) : ∀ l ∈ (roomFor n).listener, l.Passive := by simp [roomFor]
  exact ⟨htwo, hthree, larger_includes (s := roomFor 2) (t := roomFor 3) rfl rfl (by decide) rfl rfl
    rfl rfl (hsilent 2) (hsilent 3) hcalls htwo hthree⟩

end Cache

end BoundedCache
