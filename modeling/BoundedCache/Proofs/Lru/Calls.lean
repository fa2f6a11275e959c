import BoundedCache.Proofs.Lru.Simulates

namespace BoundedCache

namespace Cache

variable {r : Lru} {c : Cache} {key : Key} {value expected : Value} {fresh : Held} {seen : Sight}
  {id : NodeId}

/-- A conditional write that nothing comes between compares what is there. -/
theorem swapSeen_of_load (h : c.engine.pool.load id = some seen) (accepts : Value → Bool)
    (next : Option Held) :
    (accepts seen.held.value = true ∧ ∃ p, c.engine.pool.Rewrites p id seen.held next ∧
      c.engine.pool.swapSeen id seen accepts next = .ok (seen.held, p)) ∨
    (accepts seen.held.value = false ∧ ∃ refusal,
      c.engine.pool.swapSeen id seen accepts next = .error refusal) := by
  have hsame : c.engine.pool.swapSeen id seen accepts next =
      c.engine.pool.swapWhen id accepts next := by
    obtain ⟨n, hn, hl⟩ := Option.bind_eq_some_iff.mp h
    simp only [Pool.swapSeen, Pool.swapWhen, Pool.write, hn, Node.swapSeen_load hl]
  rw [hsame]
  have hheld := Pool.held_of_load h
  cases ha : accepts seen.held.value with
  | true =>
    obtain ⟨p, hp⟩ := Pool.exists_swapWhen hheld accepts ha next
    exact Or.inl ⟨rfl, p, (Pool.rewrites_of_swapWhen hp).1, hp⟩
  | false =>
    refine Or.inr ⟨rfl, ?_⟩
    cases hs : c.engine.pool.swapWhen id accepts next with
    | error refusal => exact ⟨refusal, rfl⟩
    | ok result =>
      obtain ⟨last, p⟩ := result
      obtain ⟨hq, hlast⟩ := Pool.rewrites_of_swapWhen hs
      cases hq.was.symm.trans hheld
      exact absurd (ha.symm.trans hlast) Bool.false_ne_true

namespace Mirrors

theorem weighing_of_error {message : String} (h : c.Mirrors r) (hw : c.weigh value = .error message)
    (effect : Lru.Effect) : r.weighing value effect = ⟨.refused message, [], r⟩ := by
  unfold weigh at hw
  rw [h.weigher] at hw
  unfold Lru.weighing
  cases hv : r.weigher value with
  | ok weight => simp [hv] at hw
  | error other =>
    simp only [hv, Except.error.injEq] at hw
    rw [hw]

theorem weighing_of_ok (h : c.Mirrors r) (hw : c.weigh value = .ok fresh) (effect : Lru.Effect) :
    r.weighing value effect = effect := by
  unfold weigh at hw
  rw [h.weigher] at hw
  unfold Lru.weighing
  cases hv : r.weigher value with
  | ok weight => rfl
  | error other => simp [hv] at hw

/-- The value of a live node is replaced. -/
theorem overwrite (h : c.Mirrors r) (hw : c.weigher fresh.value = .ok fresh.weight)
    (alive : c.engine.pool.held id = some seen.held) :
    ∃ done, c.overwrite Cache.deliver id fresh = some done ∧
      Simulates c (Reply.answering .value done)
        (r.write (.value (some seen.held.value))
          (r.overwritten (c.engine.pool.key id) fresh.value)) := by
  obtain ⟨p, hr⟩ := Pool.exists_replace alive fresh
  refine ⟨_, by rw [Cache.overwrite, hr, Option.map_some], ?_⟩
  exact h.update hw (Pool.rewrites_of_replace hr) .value _

theorem insertion (h : c.Mirrors r) (onLive : OnLive) (key : Key) (value : Value) :
    Simulates c
      (Reply.answering .value
        ((c.startInsert Cache.deliver onLive key value).finish (resumeInsert Cache.deliver) c))
      (r.step (onLive.call key value)) := by
  rw [finish_startInsert]
  cases hw : c.weigh value with
  | error message =>
    cases onLive with
    | overwrite | keep =>
      rw [OnLive.call, Lru.step, h.weighing_of_error hw]
      exact h.idle (fun n => n) _
  | ok fresh =>
    obtain ⟨rfl, hweight⟩ := weigh_eq_ok hw
    dsimp only
    rcases h.finds key with ⟨hk, hsight, hfound⟩ | ⟨id, seen, hk, _, hsight, alive, rfl, hfound⟩
    · have ht := Store.insertIfAbsent_of_unmapped hk c.engine.pool.next
      have heffect : r.step (onLive.call key fresh.value) =
          r.write (.value none) (r.entries ++ [⟨key, fresh.value⟩]) := by
        cases onLive <;> simp only [OnLive.call, Lru.step, h.weighing_of_ok hw, hfound]
      rw [heffect]
      simp only [insertNow, seek, hsight, Progress.finish, occupy, mapFresh?, ht, Except.toOption,
        Option.map_some, Option.getD_some]
      exact h.insert hweight ht .value none
    · simp only [insertNow, seek, hsight, Progress.finish, meetLive]
      cases onLive with
      | overwrite =>
        obtain ⟨done, hdone, hsim⟩ := h.overwrite hweight alive
        simp only [hdone, Option.getD_some, OnLive.call, Lru.step, h.weighing_of_ok hw, hfound]
        exact hsim
      | keep =>
        simp only [Option.getD_some, OnLive.call, Lru.step, h.weighing_of_ok hw, hfound]
        exact h.read alive (fun n => n) _

theorem get (h : c.Mirrors r) (key : Key) :
    Simulates c (.value (c.get key).1, (c.get key).2) (r.step (.get key)) := by
  unfold Cache.get lookup
  rcases h.finds key with ⟨_, hsight, hfound⟩ | ⟨id, seen, _, _, hsight, alive, rfl, hfound⟩
  · simp only [hsight, Lru.step, hfound]
    exact h.idle _ _
  · simp only [hsight, Lru.step, hfound]
    exact h.read alive _ _

theorem lookup_eq (h : c.Mirrors r) (key : Key) : (c.lookup key).map (·.2) = r.get? key := by
  unfold lookup
  rcases h.finds key with ⟨_, hsight, hfound⟩ | ⟨id, seen, _, _, hsight, _, _, hfound⟩ <;>
    simp only [hsight, hfound, Option.map_none, Option.map_some]

theorem replace (h : c.Mirrors r) (key : Key) (value : Value) :
    Simulates c (Reply.answering .value (c.replace Cache.deliver key value))
      (r.step (.replace key value)) := by
  unfold Cache.replace
  rcases h.finds key with ⟨hk, _, hfound⟩ | ⟨id, seen, hk, _, _, alive, rfl, hfound⟩
  · simp only [hk, Lru.step, hfound]
    exact h.idle (fun n => n) _
  · simp only [hk, Lru.step, hfound]
    cases hw : c.weigh value with
    | error message =>
      rw [h.weighing_of_error hw]
      exact h.idle (fun n => n) _
    | ok fresh =>
      obtain ⟨rfl, hweight⟩ := weigh_eq_ok hw
      obtain ⟨done, hdone, hsim⟩ := h.overwrite hweight alive
      simp only [hdone, Option.getD_some, h.weighing_of_ok hw]
      exact hsim

theorem remove (h : c.Mirrors r) (key : Key) :
    Simulates c (Reply.answering .value (c.remove Cache.deliver key)) (r.step (.remove key)) := by
  unfold Cache.remove
  rcases h.finds key with ⟨hk, _, hfound⟩ | ⟨id, seen, hk, _, _, alive, rfl, hfound⟩
  · simp only [Store.remove_eq_none_iff.mpr hk, Lru.step, hfound]
    exact h.idle (fun n => n) _
  · obtain ⟨s, ht⟩ := h.accounted.exists_removeIfMatch alive
    obtain ⟨p, hretire⟩ := Pool.exists_retire alive
    simp only [Store.remove_eq_some_iff.mpr ht, hretire, Lru.step, hfound]
    exact h.retire (Pool.rewrites_of_retire hretire) ht .value _

theorem removeIf (h : c.Mirrors r) (key : Key) (expected : Value) :
    Simulates c (Reply.answering .flag (c.removeIf Cache.deliver key expected))
      (r.step (.removeIf key expected)) := by
  unfold Cache.removeIf startRemoveIf
  rcases h.finds key with ⟨hk, _, hfound⟩ | ⟨id, seen, hk, hload, _, alive, rfl, hfound⟩
  · simp only [hk, Progress.finish, Lru.step, hfound]
    exact h.idle (fun n => n) _
  · obtain ⟨s, ht⟩ := h.accounted.exists_removeIfMatch alive
    simp only [hk, startSwap, hload, Progress.finish, resumeSwap, Lru.step, hfound]
    rcases swapSeen_of_load hload (· == expected) none with
      ⟨ha, p, hq, hswap⟩ | ⟨ha, refusal, hswap⟩
    · simp only [hswap, ht, Option.getD_some]
      rw [if_pos (eq_of_beq ha)]
      exact h.retire hq ht .flag true
    · simp only [hswap]
      rw [if_neg (ne_of_beq_false ha)]
      exact h.idle (fun n => n) _

theorem replaceIf (h : c.Mirrors r) (key : Key) (expected value : Value) :
    Simulates c (Reply.answering .flag (c.replaceIf Cache.deliver key expected value))
      (r.step (.replaceIf key expected value)) := by
  unfold Cache.replaceIf startReplaceIf
  rcases h.finds key with ⟨hk, _, hfound⟩ | ⟨id, seen, hk, hload, _, alive, rfl, hfound⟩
  · simp only [hk, Progress.finish, Lru.step, hfound]
    exact h.idle (fun n => n) _
  · simp only [hk, Lru.step, hfound]
    cases hw : c.weigh value with
    | error message =>
      rw [h.weighing_of_error hw]
      exact h.idle (fun n => n) _
    | ok fresh =>
      obtain ⟨rfl, hweight⟩ := weigh_eq_ok hw
      simp only [startSwap, hload, Progress.finish, resumeSwap, h.weighing_of_ok hw]
      rcases swapSeen_of_load hload (· == expected) (some fresh) with
        ⟨ha, p, hq, hswap⟩ | ⟨ha, refusal, hswap⟩
      · simp only [hswap]
        rw [if_pos (eq_of_beq ha)]
        exact h.update hweight hq .flag true
      · simp only [hswap]
        rw [if_neg (ne_of_beq_false ha)]
        exact h.idle (fun n => n) _

theorem setCapacity (h : c.Mirrors r) (capacity : Nat) :
    Simulates c (Reply.answering Answer.ofCheck (c.setCapacity Cache.deliver capacity))
      (r.step (.setCapacity capacity)) := by
  unfold Cache.setCapacity
  rw [if_neg h.free, Lru.step]
  by_cases hzero : capacity = 0
  · rw [if_pos hzero, if_pos hzero]
    exact h.idle (fun n => n) _
  · rw [if_neg hzero, if_neg hzero]
    exact h.drain capacity _

/-- A clean-up evicts nothing, as every write has evicted what it had to. -/
theorem cleanUp (h : c.Mirrors r) :
    Simulates c (Reply.answering (fun _ => .done) (c.cleanUp Cache.deliver)) (r.step .cleanUp) := by
  have hfits := h.fits
  rw [h.weight_eq, h.capacity] at hfits
  have hsame : { r with capacity := c.capacity } = r := by rw [h.capacity]
  have heffect : r.write .done r.entries = r.step .cleanUp := by
    rw [Lru.write, Lru.evict_of_fits hfits]
    rfl
  have hdrain := h.drain c.capacity .done
  rw [hsame, heffect] at hdrain
  unfold Cache.cleanUp
  rw [if_neg h.free]
  exact hdrain

/-- Every call has the effect that it has on the reference. -/
theorem run (h : c.Mirrors r) (call : Call) (hc : call.diagnostic = false) :
    Simulates c (call.run Cache.deliver c) (r.step call) := by
  cases call with
  | get key => exact h.get key
  | getQuietly key =>
    rw [Lru.step, ← h.lookup_eq]
    exact h.idle (fun n => n) _
  | contains key =>
    rw [Lru.step, ← h.lookup_eq, Option.isSome_map]
    exact h.idle (fun n => n) _
  | put key value =>
    rw [Call.run, Call.start, Progress.finish_answering fun _ _ => rfl]
    exact h.insertion .overwrite key value
  | putIfAbsent key value =>
    rw [Call.run, Call.start, Progress.finish_answering fun _ _ => rfl]
    exact h.insertion .keep key value
  | replace key value => exact h.replace key value
  | remove key => exact h.remove key
  | removeIf key expected =>
    rw [Call.run, Call.start, Progress.finish_answering fun _ _ => rfl]
    exact h.removeIf key expected
  | replaceIf key expected value =>
    rw [Call.run, Call.start, Progress.finish_answering fun _ _ => rfl]
    exact h.replaceIf key expected value
  | length =>
    rw [Lru.step, ← h.length_eq]
    exact h.idle (fun n => n) _
  | isEmpty =>
    rw [Lru.step, ← h.length_eq]
    exact h.idle (fun n => n) _
  | weightedSize =>
    rw [Lru.step, ← h.weight_eq]
    exact h.idle (fun n => n) _
  | capacity =>
    rw [Lru.step, ← h.capacity]
    exact h.idle (fun n => n) _
  | setCapacity capacity => exact h.setCapacity capacity
  | clear =>
    have hclear := h.clear
    rw [Call.run, Call.start, Cache.clear, if_neg h.free]
    generalize c.cleared = result at hclear ⊢
    exact hclear
  | cleanUp => exact h.cleanUp
  | check | metrics | describe => cases hc

end Mirrors

end Cache

end BoundedCache
