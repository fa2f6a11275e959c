import Mathlib
import BoundedCache.Proofs.Cache.Moves
import BoundedCache.Proofs.Store.Requests

namespace BoundedCache

namespace Engine

variable {e e' : Engine}

/-- What a change makes of the store can be asked of it. -/
theorem Change.exists_requests (h : Change e e') : ∃ requests : List Store.Request,
    (∀ r ∈ requests, r.Carries e'.pool) ∧ e'.store = Store.askAll requests e.store := by
  cases h with
  | rebuffer | rewrite | pop | weigh => exact ⟨[], by simp, rfl⟩
  | apply ev =>
    obtain ⟨d, hd⟩ := exists_apply_eq e ev
    rw [hd]
    exact ⟨[], by simp, rfl⟩
  | @insert key fresh s store =>
    refine ⟨[.insertIfAbsent key e.pool.next], ?_, by simp [Store.askAll, Store.ask, store]⟩
    simp [Store.Request.Carries, Store.Request.node?, Store.Request.key, Pool.key?, Pool.node?_add]
  | @supersede key id fresh s store =>
    refine ⟨[.replaceIfMatch key id e.pool.next], ?_, by simp [Store.askAll, Store.ask, store]⟩
    simp [Store.Request.Carries, Store.Request.node?, Store.Request.key, Pool.key?, Pool.node?_add]
  | @unmap key id s store =>
    refine ⟨[.removeIfMatch key id], ?_, by simp [Store.askAll, Store.ask, store]⟩
    simp [Store.Request.Carries, Store.Request.node?]

theorem Changes.exists_requests (h : Changes e e') : ∃ requests : List Store.Request,
    (∀ r ∈ requests, r.Carries e'.pool) ∧ e'.store = Store.askAll requests e.store := by
  induction h with
  | refl => exact ⟨[], by simp, rfl⟩
  | tail _ hstep ih =>
    obtain ⟨before, hbefore, hs⟩ := ih
    obtain ⟨last, hlast, hs'⟩ := hstep.exists_requests
    refine ⟨before ++ last, List.forall_mem_append.mpr ⟨fun r hr => ?_, hlast⟩, ?_⟩
    · exact (hbefore r hr).grows (Evolves.of_change hstep).pool
    · rw [hs', hs, Store.askAll_append]

end Engine

namespace Cache

/-- The store is a finite map that respects the identity of nodes, after any row of requests that
map nodes under their own keys. The store of a cache has only ever been asked such requests,
whatever operations have run. -/
theorem store_faithful :
    (∀ (p : Pool) (requests : List Store.Request), (∀ r ∈ requests, r.Carries p) →
      (Store.askAll requests {}).Faithful p) ∧
    ∀ (s : Settings) (c : Cache), Reachable s c → c.engine.store.Faithful c.engine.pool ∧
      ∃ requests : List Store.Request, (∀ r ∈ requests, r.Carries c.engine.pool) ∧
        c.engine.store = Store.askAll requests {} := by
  refine ⟨fun p requests hr => Store.faithful_askAll hr, fun s c h => ?_⟩
  obtain ⟨fresh, hbuild, hmoves⟩ := h
  obtain ⟨_, rfl⟩ := Settings.eq_empty_of_build hbuild
  obtain ⟨requests, hr, hstore⟩ := hmoves.engine.exists_requests
  exact ⟨hstore ▸ Store.faithful_askAll hr, requests, hr, hstore⟩

/-- A retired node loses its mapping to a new one, and that loses its own to a node that is no
different from it but for its number; another key comes and goes. -/
def lookalikes : List Op :=
  [.call (.put "a" "1"), .probe (.retire "a"), .call (.put "a" "2"), .probe (.remap "a" "2"),
    .call (.put "b" "3"), .probe (.unmap "b"), .call .cleanUp, .probe (.map "b" "4")]

theorem store_faithful_lookalikes :
    let c := (perform lookalikes { capacity := 3 : Settings }.empty).2
    c.engine.pool.node? 1 = c.engine.pool.node? 2 ∧ c.engine.store.get? "a" = some 2 ∧
      c.length = 2 ∧ c.engine.store.Faithful c.engine.pool ∧
      c.engine.store.ask (.removeIfMatch "a" 1) = (.matched false, c.engine.store) := by
  have hreached : Reachable { capacity := 3 } (perform lookalikes { capacity := 3 : Settings }.empty).2 :=
    reachable_perform rfl lookalikes
  have hfaithful := (store_faithful.2 _ _ hreached).1
  refine ⟨by cbv, by cbv, by cbv, hfaithful, (hfaithful.refuses "a" 1 ?_).1⟩
  cbv
  decide

end Cache

end BoundedCache
