import BoundedCache.Proofs.Lru.Calls

namespace BoundedCache

namespace Cache

variable {r : Lru} {c next fresh : Cache} {s : Settings} {call : Call} {calls : List Call}
  {done : Answer Step × Cache} {effect : Lru.Effect}

/-- One call keeps cache and reference in step. -/
theorem Mirrors.step (h : c.Mirrors r) (hc : call.diagnostic = false) :
    Simulates c (call.run Cache.deliver c) (r.step call) ∧
      (call.run Cache.deliver c).2.Mirrors (r.step call).after ∧
      (call.run Cache.deliver c).2.relay.enabled = c.relay.enabled := by
  have hminds : Minds .uncontended Cache.deliver := minds_deliver rfl fun _ => rfl
  have hp := h.quiet.proper Scope.uncontended.Allows
  have hsim := h.run call hc
  obtain ⟨hevolves, htidy⟩ := Op.run_spec (lawful_keepsTidy hminds rfl fun _ => rfl) hminds.steady
    (.call call) c rfl hp
  obtain ⟨_, hease⟩ := Op.run_spec (lawful_atEase .uncontended) hminds.steady (.call call) c rfl hp
  obtain ⟨hweigher, htouch⟩ := r.keeps_step call
  exact ⟨hsim,
    { toTidy := htidy [] h.toTidy
      toAtEase := hease h.toAtEase
      toShows := hsim.shows
      quiet := hevolves.proper h.quiet
      weigher := hevolves.weigher.trans (h.weigher.trans hweigher.symm)
      touch := hevolves.engine.touch.trans (h.touch.trans htouch.symm)
      limit := hevolves.engine.room.trans h.limit }, hevolves.enabled⟩

/-- A call that simulates shows what the reference shows. -/
theorem Simulates.view (h : Simulates c done effect) (hm : done.2.Mirrors effect.after)
    (call : Call) :
    Report.view ⟨done.2.step (.call call) done.1 none,
      done.2.relay.notices.drop c.relay.notices.length, done.2.drains.drop c.drains.length⟩ =
      effect.view c.relay.enabled := by
  obtain ⟨drains, hdrains, hvictims⟩ := h.evicts.drains
  have htold : (done.2.relay.notices.drop c.relay.notices.length).map (·.entry) =
      if c.relay.enabled then effect.victims else [] := by
    have hlength : c.relay.notices.length = c.told.length := (List.length_map _).symm
    rw [List.map_drop, hlength]
    exact (congrArg (List.drop c.told.length) h.evicts.told).trans List.drop_left
  have hevicted : (done.2.drains.drop c.drains.length).flatMap (·.victims) = effect.victims := by
    rw [hdrains, List.drop_left, hvictims]
  simp only [Report.view, Cache.step, Lru.Effect.view, h.answer, hm.length_eq, hm.weight_eq, htold,
    hevicted]

/-- A run of calls shows what the reference shows, and keeps the two in step. -/
theorem Mirrors.perform (h : c.Mirrors r) (hcalls : ∀ call ∈ calls, call.diagnostic = false) :
    (perform (calls.map .call) c).1.map Report.view = (Lru.run c.relay.enabled calls r).1 ∧
      (perform (calls.map .call) c).2.Mirrors (Lru.run c.relay.enabled calls r).2 := by
  induction calls generalizing c r with
  | nil => exact ⟨rfl, h⟩
  | cons call rest ih =>
    obtain ⟨hcall, hrest⟩ := List.forall_mem_cons.mp hcalls
    obtain ⟨hsim, hnext, henabled⟩ := h.step hcall
    have hview := hsim.view hnext call
    obtain ⟨hviews, hlast⟩ := ih hnext hrest
    rw [henabled] at hviews hlast
    exact ⟨congrArg₂ List.cons hview hviews, hlast⟩

theorem mirrors_empty (s : Settings) (hlistener : ∀ l ∈ s.listener, l.Passive) :
    s.empty.Mirrors s.reference where
  toTidy := tidy_empty s
  toAtEase := atEase_empty s
  capacity := rfl
  lone := Buffers.lone_ofLevel _ _ _
  pending := by simp [Settings.empty, Settings.reference]
  entries := by
    rw [Settings.empty, Buffers.events_ofLevel]
    rfl
  quiet := Settings.proper_empty hlistener
  weigher := rfl
  touch := rfl
  limit := rfl

/-- What is inside the cache, seen through its own look-ups, and the recency order that a clean-up
finds, are what the reference has. -/
structure Agrees (c : Cache) (r : Lru) : Prop where
  capacity : c.capacity = r.capacity
  found : ∀ key, c.getQuietly key = r.get? key
  pairs : c.engine.live.Perm r.entries
  recency : (c.cleanUp deliver).2.engine.recency = r.entries

theorem Mirrors.agrees (h : c.Mirrors r) : c.Agrees r where
  capacity := h.capacity
  found := h.lookup_eq
  pairs := h.live_perm
  recency := by
    have hshows := h.cleanUp.shows
    have hentries := hshows.entries
    rw [List.length_eq_zero_iff.mp hshows.pending] at hentries
    exact hentries

/-- A cache with one user and a listener that never calls back is an LRU list on which every call
takes effect at once: after each call of a run, and whatever the calls are. -/
theorem simulates_lru (hbuild : s.build = .ok fresh) (hlistener : ∀ l ∈ s.listener, l.Passive)
    (hcalls : ∀ call ∈ calls, call.diagnostic = false) :
    (perform (calls.map .call) fresh).1.map Report.view =
        (Lru.run s.listener.isSome calls s.reference).1 ∧
      (perform (calls.map .call) fresh).2.Agrees
        (Lru.run s.listener.isSome calls s.reference).2 := by
  obtain ⟨_, rfl⟩ := Settings.eq_empty_of_build hbuild
  obtain ⟨hviews, hlast⟩ := (mirrors_empty s hlistener).perform hcalls
  exact ⟨hviews, hlast.agrees⟩

def pairing : Settings := { capacity := 2, listener := some { failing := [("b", .other)] } }

/-- Reads of one key until they no longer count, then a read of the other key. -/
def manyReads : List Call :=
  .put "b" "1" :: .put "a" "2" ::
    (List.replicate Lru.readLimit (Call.get "a")).append [.get "b", .put "c" "3"]

theorem simulates_lru_manyReads :
    ((perform (manyReads.map .call) pairing.empty).1.map Report.view).flatMap (·.told) =
      [⟨"b", "1"⟩] := by
  have hlistener : ∀ l ∈ pairing.listener, l.Passive := by
    simp [pairing, Listener.Passive, Listener.Stocks]
  have hcalls : ∀ call ∈ manyReads, call.diagnostic = false := by decide +kernel
  rw [(simulates_lru (s := pairing) rfl hlistener hcalls).1]
  decide +kernel

end Cache

end BoundedCache
