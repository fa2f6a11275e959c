import Mathlib
import BoundedCache.Proofs.Cache.Moves

namespace BoundedCache

namespace Cache

variable {s : Settings} {c : Cache} {courier : Courier} {key : Key} {value : Value} {weight : Weight}

/-- An insertion into a key without a live value stops at what it sees there. -/
theorem startInsert_of_vacant (courier : Courier) (onLive : OnLive)
    (hw : c.weigher value = .ok weight) (hk : c.contains key = false) :
    ∃ vacancy, c.startInsert courier onLive key value =
        .gap ⟨onLive, key, ⟨value, weight⟩, vacancy⟩ ∧
      ∀ id, vacancy = .retired id → c.engine.store.get? key = some id ∧
        c.engine.pool.held id = none := by
  have hweigh : c.weigh value = .ok ⟨value, weight⟩ := by rw [weigh, hw]
  cases hs : c.sight key with
  | unmapped =>
    refine ⟨.unmapped, ?_, fun id h => by cases h⟩
    simp only [startInsert, hweigh, seek, hs]
  | retired id =>
    refine ⟨.retired id, ?_, fun other h => ?_⟩
    · simp only [startInsert, hweigh, seek, hs]
    · cases h
      have hmapped := get?_of_sight_retired hs
      refine ⟨hmapped, Pool.load_eq_none_iff.mp ?_⟩
      unfold sight at hs
      cases hl : c.engine.pool.load id with
      | none => rfl
      | some seen => simp [hmapped, hl] at hs
  | live id seen => simp [contains, lookup, hs] at hk

/-- Interrupted insertions take effect at their end: in every reachable state, if the weigher takes
the value and the key has no live one, operations that run in the gap of an insertion might as well
have run before it. -/
theorem interrupted_insertion (hc : Reachable s c)
    (hcourier : courier = deliver ∨ courier = Courier.busy) (onLive : OnLive)
    (hw : c.weigher value = .ok weight) (hk : c.contains key = false) (meanwhile : List Op) :
    (Op.interrupted (onLive.call key value) meanwhile).run courier c =
      let (steps, between) := Op.runAll courier meanwhile c
      let (step, after) := (Op.call (onLive.call key value)).run courier between
      ({ step with meanwhile := some steps }, after) := by
  obtain ⟨vacancy, hstart, hvacancy⟩ := startInsert_of_vacant courier onLive hw hk
  have hmoves : c.Moves (Op.runAll courier meanwhile c).2 := by
    refine Op.runAll_moves ?_ meanwhile c
    rcases hcourier with rfl | rfl
    · exact moving_deliver
    · exact Courier.moving_busy
  have hgap : (onLive.call key value).start courier c =
      .gap (.insertion ⟨onLive, key, ⟨value, weight⟩, vacancy⟩) := by
    cases onLive <;> simp only [OnLive.call, Call.start, hstart, Progress.answering]
  unfold Op.run
  simp only [hgap]
  rcases hrun : Op.runAll courier meanwhile c with ⟨steps, between⟩
  rw [hrun] at hmoves
  -- A node that was retired before is retired still.
  have hresume : between.resumeInsert courier ⟨onLive, key, ⟨value, weight⟩, vacancy⟩ =
      between.insertNow courier onLive key ⟨value, weight⟩ := by
    refine resumeInsert_eq courier fun id hid => ?_
    obtain ⟨hmapped, hdead⟩ := hvacancy id hid
    exact hmoves.evolves.pool.held_eq_none (hc.sound.made key id hmapped) hdead
  have hweigh : between.weigh value = .ok ⟨value, weight⟩ := by
    rw [weigh, hmoves.weigher, hw]
  have hcall : (onLive.call key value).run courier between =
      Suspended.resume courier (.insertion ⟨onLive, key, ⟨value, weight⟩, vacancy⟩) between := by
    have hfinish := finish_startInsert courier onLive key value between
    rw [hweigh] at hfinish
    have hanswer : ((between.startInsert courier onLive key value).answering .value
        .insertion).finish (Suspended.resume courier) between =
          Reply.answering .value (between.insertNow courier onLive key ⟨value, weight⟩) := by
      rw [Progress.finish_answering fun _ _ => rfl, hfinish]
    rw [← hresume] at hanswer
    cases onLive <;> exact hanswer
  simp only [hcall]
  rfl

def halfRemoved : List Op := [.probe (.map "a" "1"), .probe (.retire "a")]

/-- The mapping goes away and comes back, with another retired node in it. -/
def churn : List Op :=
  [.probe (.unmap "a"), .call (.put "a" "2"), .hold [.probe (.retire "a")], .call (.put "b" "3")]

theorem interrupted_insertion_churn :
    (perform halfRemoved { capacity := 2 : Settings }.empty).2.contains "a" = false ∧
      (Op.interrupted (.put "a" "4") churn).run deliver
          (perform halfRemoved { capacity := 2 : Settings }.empty).2 =
        let (steps, between) :=
          Op.runAll deliver churn (perform halfRemoved { capacity := 2 : Settings }.empty).2
        let (step, after) := (Op.call (.put "a" "4")).run deliver between
        ({ step with meanwhile := some steps }, after) := by
  have hvacant : (perform halfRemoved { capacity := 2 : Settings }.empty).2.contains "a" = false := by
    cbv
  have hweigh : (perform halfRemoved { capacity := 2 : Settings }.empty).2.weigher "4" = .ok 1 := rfl
  exact ⟨hvacant, interrupted_insertion (s := { capacity := 2 }) (reachable_perform rfl halfRemoved)
    (Or.inl rfl) .overwrite hweigh hvacant churn⟩

end Cache

end BoundedCache
