import Mathlib
import BoundedCache.Proofs.Cache.Moves
import BoundedCache.Proofs.Engine.Sizes

namespace BoundedCache.Cache

variable {s : Settings} {fresh : Cache}

/-- Size arithmetic is exact. The gauges go along with every sum of a run, at whatever moment the
run takes it. If fewer than `2 ^ 32` nodes are ever linked at once, then neither the number of
linked nodes nor their total weight leaves 64 bits, and nothing is ever taken from a number that is
smaller, the number of mappings included. -/
theorem sizes_exact (hbuild : s.build = .ok fresh) (ops : List Op)
    (hlinked : (perform ops fresh).2.engine.deque.linked.peak < 2 ^ 32) :
    let e := (perform ops fresh).2.engine
    e.deque.linked.Exact (2 ^ 64) ∧ e.deque.total.Exact (2 ^ 64) ∧
      e.store.mapped.overdrawn = false ∧
      IsGreatest {n | ∃ m, Engine.Changes fresh.engine m ∧ Engine.Changes m e ∧
        m.deque.toList.length = n} e.deque.linked.peak := by
  obtain ⟨_, rfl⟩ := Settings.eq_empty_of_build hbuild
  have hfirst : s.empty.engine.Measured := Engine.measured_of_empty rfl rfl
  have hchanges : Engine.Changes s.empty.engine (perform ops s.empty).2.engine := by
    rw [(perform_eq ops s.empty).2]
    exact (Op.runAll_moves moving_deliver ops s.empty).engine
  have hlast := hfirst.changes hchanges
  have hweights : (perform ops s.empty).2.engine.deque.total.peak < 2 ^ 64 := by
    have hmost := hlast.deque.peak_le
    omega
  have hfits : (2 : Nat) ^ 32 ≤ 2 ^ 64 := by decide
  refine ⟨⟨Nat.lt_of_lt_of_le hlinked hfits, hlast.deque.linked.paid⟩,
    ⟨hweights, hlast.deque.total.paid⟩, hlast.mapped.paid, ?_⟩
  exact Engine.Changes.isGreatest_peak hchanges hfirst rfl

/-- Two nodes of the greatest weight are linked, one of them loses nearly all of it and is unmapped,
and the other is evicted. -/
def heavyweights : List Op :=
  [.call (.put "a" "1"), .call (.put "b" "2"), .probe (.linkWeight "a" 4294967295),
    .probe (.linkWeight "b" 4294967295), .probe (.linkWeight "b" 5), .probe (.unmap "b"),
    .call .cleanUp]

theorem sizes_exact_heavyweights :
    let e := (perform heavyweights { capacity := 5 : Settings }.empty).2.engine
    e.deque.linked = { value := 1, peak := 2 } ∧
      e.deque.total = { value := 5, peak := 8589934590 } ∧
      e.store.mapped = { value := 0, peak := 2 } ∧
      e.deque.linked.Exact (2 ^ 64) ∧ e.deque.total.Exact (2 ^ 64) ∧
      e.store.mapped.overdrawn = false := by
  have hlinked : (perform heavyweights { capacity := 5 : Settings }.empty).2.engine.deque.linked =
      { value := 1, peak := 2 } := by cbv
  obtain ⟨hlength, hweight, hmapped, _⟩ := sizes_exact (s := { capacity := 5 }) rfl heavyweights
    (by rw [hlinked]; decide)
  exact ⟨hlinked, by cbv, by cbv, hlength, hweight, hmapped⟩

end BoundedCache.Cache
