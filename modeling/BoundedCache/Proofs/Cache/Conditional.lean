import Mathlib
import BoundedCache.Proofs.Lru.Quiet

namespace BoundedCache

namespace Cache

variable {s : Settings} {c c' : Cache} {courier : Courier} {call : Call} {answer : Answer Step}
  {event : Event} {key : Key} {expected : Value} {next : Option Held} {id : NodeId} {seen : Sight}
  {scope : Scope}

/-- A state between two operations of a scope, at the top level or inside of a hold. -/
inductive Visited (scope : Scope) (s : Settings) : Cache → Prop where
  | built {fresh : Cache} (build : s.build = .ok fresh) : Visited scope s fresh
  | ran {c : Cache} {op : Op} (within : op.within scope = true) (h : Visited scope s c) :
      Visited scope s (op.run deliver c).2
  | held {c : Cache} (hold : scope.hold = true) (h : Visited scope s c) :
      Visited scope s { c with lockHeld := true }

/-- With a listener that never calls back, a cache stays quiet. -/
theorem Visited.quiet (h : Visited scope s c) (hl : ∀ l ∈ s.listener, l.Passive) :
    c.Quiet ∧ c.weigher = s.weigher := by
  induction h with
  | built build =>
    obtain ⟨_, rfl⟩ := Settings.eq_empty_of_build build
    exact ⟨Settings.proper_empty hl, rfl⟩
  | @ran c op within _ ih =>
    have hrun := Op.run_evolves (steady_deliver scope) op c within (ih.1.proper _)
    exact ⟨hrun.proper ih.1, hrun.weigher.trans ih.2⟩
  | held _ _ ih => exact ⟨ih.1.underLock, ih.2⟩

def Fades (c c' : Cache) : Prop :=
  ∀ id, c.engine.pool.held id = none → c'.engine.pool.held id = none

theorem fades_drained (c : Cache) : Fades c c.drained := by
  intro id hid
  rw [engine_drained]
  cases hh : (c.engine.run c.capacity).2.pool.held id with
  | none => rfl
  | some held => exact absurd (hid.symm.trans (Engine.held_of_run hh)) (by simp)

theorem fades_drain (h : c.Quiet) : Fades c (c.drain deliver) := by
  obtain ⟨r, hr, _⟩ := deliver_quiet (c := c.drained) ((Evolves.drained c).proper h)
  intro id hid
  rw [drain, hr]
  exact fades_drained c id hid

theorem fades_recordWrite (h : c.Quiet) (hr : c.recordWrite deliver event = some c') :
    Fades c c' :=
  recordWrite_rel (R := Fades) (P := fun _ => False) (fun _ _ hid => hid)
    (fun _ _ h h' id hid => h' id (h id hid)) (fun _ _ _ hid => hid) (fun _ hp => fades_drain hp)
    (fun c hp => steady_deliver {} c (Quiet.proper hp _)) h hr

/-- A node that a write brings to life belongs to a key that was not mapped before. -/
theorem Writes.alive_before (h : c.Writes call answer event c')
    (hlive : (c'.engine.pool.held id).isSome) :
    (c.engine.pool.held id).isSome ∨ c.engine.store.get? (c'.engine.pool.key id) = none := by
  cases h with
  | replace _ _ _ hp =>
    rw [engine_count, hp.held] at hlive
    split at hlive
    · rename_i he
      exact Or.inl (by rw [he, hp.was]; rfl)
    · exact Or.inl hlive
  | insert _ _ _ hs =>
    rw [engine_count, Pool.held_add] at hlive
    split at hlive
    · rename_i he
      rw [engine_count, Pool.key_add, if_pos he]
      exact Or.inr (Store.insertIfAbsent_eq_ok hs).1
    · exact Or.inl hlive
  | retire _ _ hp _ =>
    rw [engine_count, hp.held] at hlive
    split at hlive
    · cases hlive
    · exact Or.inl hlive

/-- So does a node that a call brings to life. -/
theorem Performs.alive_before (h : c.Performs deliver call answer c') (hq : c.Quiet)
    (hlive : (c'.engine.pool.held id).isSome) :
    (c.engine.pool.held id).isSome ∨ c.engine.store.get? (c'.engine.pool.key id) = none := by
  have halive {c c' : Cache} (hf : Fades c c') (hid : (c'.engine.pool.held id).isSome) :
      (c.engine.pool.held id).isSome := by
    cases hh : c.engine.pool.held id with
    | none => simp [hf id hh] at hid
    | some held => rfl
  cases h with
  | idle => exact Or.inl hlive
  | reads =>
    refine Or.inl (halive (fun id hid => ?_) hlive)
    unfold recordRead
    split <;> exact hid
  | @writes _ _ _ written _ hw hr =>
    have hq' := hw.evolves.proper hq
    have hwritten := halive (fades_recordWrite hq' hr) hlive
    obtain ⟨held, hh⟩ := Option.isSome_iff_exists.mp hwritten
    have hgrows := (Evolves.recordWrite hr (steady_deliver {}) (Quiet.proper hq' _)).engine.pool
    rw [hgrows.key_eq (Pool.lt_next_of_held hh)]
    exact hw.alive_before hwritten
  | stuck hw => exact hw.alive_before hlive
  | waits => exact Or.inl hlive
  | @setCapacity capacity =>
    have hcap : Quiet { c with capacity } := (Evolves.recap c capacity).proper hq
    have hbefore : ((Cache.engine { c with capacity }).pool.held id).isSome :=
      halive (fades_drain hcap) hlive
    exact Or.inl hbefore
  | cleanUp => exact Or.inl (halive (fades_drain hq) hlive)
  | clear =>
    obtain ⟨r, hr, _⟩ := deliver_quiet ((Evolves.cleared c).proper hq)
    refine Or.inl (halive (fun id hid => ?_) hlive)
    rw [hr, cleared_eq]
    exact hq.paired.held_clear id

def runCalls (calls : List Call) (c : Cache) : List Step × Cache :=
  Op.runAll deliver (calls.map .call) c

theorem runCalls_append (before after : List Call) (c : Cache) :
    runCalls (before ++ after) c =
      ((runCalls before c).1 ++ (runCalls after (runCalls before c).2).1,
        (runCalls after (runCalls before c).2).2) := by
  rw [runCalls, List.map_append, Op.runAll_append]
  rfl

theorem evolves_run (hq : c.Quiet) (call : Call) : c.Evolves (call.run deliver c).2 :=
  (call.run_performs deliver hq.paired).evolves (steady_deliver {}) (hq.proper _)

theorem evolves_runCalls (hq : c.Quiet) (calls : List Call) : c.Evolves (runCalls calls c).2 := by
  induction calls generalizing c with
  | nil => exact .refl c
  | cons call calls ih =>
    have hcall := evolves_run hq call
    exact hcall.trans (ih (hcall.proper hq))

/-- Right after the call that retires a node the key of the node is unmapped. -/
theorem exists_retiring (hq : c.Quiet) (calls : List Call)
    (hlive : (c.engine.pool.held id).isSome)
    (hdead : (runCalls calls c).2.engine.pool.held id = none) :
    ∃ before after, calls = before ++ after ∧
      (runCalls before c).2.engine.store.get? (c.engine.pool.key id) = none := by
  induction calls generalizing c with
  | nil =>
    rw [show c.engine.pool.held id = none from hdead] at hlive
    cases hlive
  | cons call calls ih =>
    have hcall := evolves_run hq call
    have hq' : Quiet (call.run deliver c).2 := hcall.proper hq
    obtain ⟨last, hl⟩ := Option.isSome_iff_exists.mp hlive
    have hkey := hcall.engine.pool.key_eq (Pool.lt_next_of_held hl)
    cases hh : (call.run deliver c).2.engine.pool.held id with
    | some held =>
      obtain ⟨before, after, rfl, hunmapped⟩ := ih hq' (by rw [hh]; rfl) hdead
      exact ⟨call :: before, after, rfl, hkey ▸ hunmapped⟩
    | none =>
      refine ⟨[call], calls, rfl, ?_⟩
      show (call.run deliver c).2.engine.store.get? (c.engine.pool.key id) = none
      -- A node that is mapped there now would have been mapped before, and it is not `id`.
      cases hk : (call.run deliver c).2.engine.store.get? (c.engine.pool.key id) with
      | none => rfl
      | some other =>
        have hmapped := (hq.paired.mapped id).mpr hlive
        obtain ⟨held, hother⟩ := hq'.paired.alive hk
        have hkeyed := hq'.paired.store.keyed _ _ hk
        have hlater : ((call.run deliver c).2.engine.pool.held other).isSome := by
          rw [hother]
          rfl
        rcases (call.run_performs deliver hq.paired).alive_before hq hlater with hwas | hunmapped
        · obtain ⟨was, hw⟩ := Option.isSome_iff_exists.mp hwas
          have hsame := hcall.engine.pool.key_eq (Pool.lt_next_of_held hw)
          have hbefore := (hq.paired.mapped other).mpr hwas
          rw [← hsame, hkeyed, hmapped] at hbefore
          cases hbefore
          rw [hh] at hother
          cases hother
        · rw [hkeyed, hmapped] at hunmapped
          cases hunmapped

end Cache

open Cache

/-- The conditional writes of a key with a value that the weigher takes: what they expect and what
they put in its place. -/
inductive Call.Swaps (w : Weigher) (key : Key) (expected : Value) : Option Held → Call → Prop where
  | removal : Swaps w key expected none (.removeIf key expected)
  | replacement {value : Value} {weight : Weight} (weighed : w value = .ok weight) :
      Swaps w key expected (some ⟨value, weight⟩) (.replaceIf key expected value)

namespace Call.Swaps

variable {c : Cache} {call : Call} {key : Key} {expected : Value} {next : Option Held} {id : NodeId}
  {seen : Sight}

theorem start_eq (h : call.Swaps c.weigher key expected next) (courier : Courier) :
    call.start courier c =
      match c.engine.store.get? key with
      | none => .settled (.flag false) c
      | some id => (c.startSwap key id expected next).answering .flag .conditional := by
  cases h with
  | removal =>
    simp only [start, startRemoveIf]
    cases c.engine.store.get? key <;> rfl
  | replacement hw =>
    simp only [start, startReplaceIf, weigh, hw]
    cases c.engine.store.get? key <;> rfl

/-- Up to its gap such a call loads what the node of its key holds. -/
theorem start_of_load (h : call.Swaps c.weigher key expected next) (courier : Courier)
    (hk : c.engine.store.get? key = some id) (hl : c.engine.pool.load id = some seen) :
    call.start courier c = .gap (.conditional ⟨key, id, seen, expected, next⟩) := by
  simp only [h.start_eq courier, hk, startSwap, hl, Progress.answering]

theorem run_of_load (h : call.Swaps c.weigher key expected next) (courier : Courier)
    (hk : c.engine.store.get? key = some id) (hl : c.engine.pool.load id = some seen) :
    call.run courier c =
      Suspended.resume courier (.conditional ⟨key, id, seen, expected, next⟩) c := by
  simp only [Call.run, h.start_of_load courier hk hl, Progress.finish]

/-- After its gap it goes on with what it has loaded. -/
theorem interrupted_of_load (h : call.Swaps c.weigher key expected next)
    (hk : c.engine.store.get? key = some id) (hl : c.engine.pool.load id = some seen)
    (calls : List Call) :
    (Op.interrupted call (calls.map .call)).run deliver c =
      let (answer, last) := Suspended.resume deliver
        (.conditional ⟨key, id, seen, expected, next⟩) (runCalls calls c).2
      (last.step (.call call) answer (some (runCalls calls c).1), last) := by
  unfold Op.run
  simp only [h.start_of_load deliver hk hl]
  rfl

theorem run_of_unmapped (h : call.Swaps c.weigher key expected next) (courier : Courier)
    (hk : c.engine.store.get? key = none) : call.run courier c = (.flag false, c) := by
  simp only [Call.run, h.start_eq courier, hk, Progress.finish]

/-- A refused swap changes nothing. -/
theorem resume_of_error {courier : Courier}
    (h : ∃ refusal, c.engine.pool.swapSeen id seen (· == expected) next = .error refusal) :
    Suspended.resume courier (.conditional ⟨key, id, seen, expected, next⟩) c = (.flag false, c) := by
  obtain ⟨refusal, hr⟩ := h
  simp only [Suspended.resume, resumeSwap, hr]
  rfl

end Call.Swaps

namespace Cache

variable {s : Settings} {c : Cache} {call : Call} {key : Key} {expected : Value}
  {next : Option Held} {id : NodeId} {seen : Sight}

/-- The moment at which a conditional write takes effect that has loaded `seen`: the end of its gap,
or some moment at which it would be refused as it is at the end. -/
theorem exists_moment (hq : c.Quiet) (hcall : call.Swaps c.weigher key expected next)
    (hk : c.engine.store.get? key = some id) (hl : c.engine.pool.load id = some seen)
    (calls : List Call) :
    let s := Suspended.conditional ⟨key, id, seen, expected, next⟩
    ∃ before after, calls = before ++ after ∧
      (after = [] ∧ call.run deliver (runCalls before c).2 =
          s.resume deliver (runCalls before c).2 ∨
        call.run deliver (runCalls before c).2 = (.flag false, (runCalls before c).2) ∧
          s.resume deliver (runCalls calls c).2 = (.flag false, (runCalls calls c).2)) := by
  have hgap := evolves_runCalls hq calls
  have hsaw := Pool.saw_of_load hl
  have hlive := Pool.held_of_load hl
  have hkeyed := hq.paired.store.keyed key id hk
  cases ha : seen.held.value == expected with
  | false =>
    -- Another value than the expected one was loaded: refused at the load, and at the end.
    refine ⟨[], calls, rfl, Or.inr ⟨?_, ?_⟩⟩
    · rw [show (runCalls [] c).2 = c from rfl, hcall.run_of_load deliver hk hl]
      exact Call.Swaps.resume_of_error (Pool.swapSeen_of_unequal ha next)
    · exact Call.Swaps.resume_of_error (Pool.swapSeen_of_unequal ha next)
  | true =>
    cases hload : (runCalls calls c).2.engine.pool.load id with
    | some now =>
      -- The node is alive at the end, so it is mapped and the swap compares what it holds.
      refine ⟨calls, [], (List.append_nil _).symm, Or.inl ⟨rfl, ?_⟩⟩
      have hkey := hgap.engine.pool.key_eq (Pool.lt_next_of_held hlive)
      have hmapped := (hgap.paired hq.paired).mapped id
      rw [hkey, hkeyed] at hmapped
      have hk' := hmapped.mpr (by rw [Pool.held_of_load hload]; rfl)
      rw [(hgap.weigher ▸ hcall : call.Swaps _ key expected next).run_of_load deliver hk' hload]
      have hswap : (runCalls calls c).2.engine.pool.swapSeen id seen (· == expected) next =
          (runCalls calls c).2.engine.pool.swapSeen id now (· == expected) next :=
        Pool.swapSeen_eq_of_load (hsaw.grows hgap.engine.pool) ha hload next
      simp only [Suspended.resume, resumeSwap, hswap]
    | none =>
      -- The node was retired: refused right after that, and at the end.
      have hdead := Pool.load_eq_none_iff.mp hload
      obtain ⟨before, after, hsplit, hunmapped⟩ :=
        exists_retiring hq calls (by rw [hlive]; rfl) hdead
      rw [hkeyed] at hunmapped
      have hbefore := evolves_runCalls hq before
      have hcall' : call.Swaps (runCalls before c).2.weigher key expected next :=
        hbefore.weigher ▸ hcall
      refine ⟨before, after, hsplit, Or.inr ⟨hcall'.run_of_unmapped deliver hunmapped, ?_⟩⟩
      exact Call.Swaps.resume_of_error
        (Pool.swapSeen_of_retired (hsaw.grows hgap.engine.pool) hdead _ next)

/-- Interrupted conditional writes take effect at one moment: the calls that run in the gap of one
fall into those that might as well have run before it and those that might as well have run after
it. If it goes through, all of them might have run before it. -/
theorem interrupted_swap (hc : Visited .calls s c) (hlistener : ∀ l ∈ s.listener, l.Passive)
    (hcall : call.Swaps s.weigher key expected next) (hlive : c.contains key = true)
    (calls : List Call) :
    ∃ before after, calls = before ++ after ∧
      let (early, first) := runCalls before c
      let (step, second) := (Op.call call).run deliver first
      let (late, last) := runCalls after second
      (Op.interrupted call (calls.map .call)).run deliver c =
          (last.step (.call call) step.answer (some (early ++ late)), last) ∧
        (step.answer = .flag true → after = []) := by
  obtain ⟨hq, hweigher⟩ := hc.quiet hlistener
  rw [← hweigher] at hcall
  obtain ⟨id, seen, hk, hl⟩ : ∃ id seen, c.engine.store.get? key = some id ∧
      c.engine.pool.load id = some seen := by
    cases hs : c.sight key with
    | live id seen => exact ⟨id, seen, sight_eq_live hs⟩
    | unmapped | retired => simp [contains, lookup, hs] at hlive
  have hrun := hcall.interrupted_of_load hk hl calls
  obtain ⟨before, after, rfl, ⟨rfl, hmoment⟩ | ⟨hmoment, hend⟩⟩ :=
    exists_moment hq hcall hk hl calls
  · refine ⟨before, [], rfl, ?_⟩
    rw [List.append_nil] at hrun ⊢
    rw [hrun]
    rcases hb : runCalls before c with ⟨early, first⟩
    rw [hb] at hmoment
    rcases hr : Suspended.resume deliver (.conditional ⟨key, id, seen, expected, next⟩) first with
      ⟨answer, last⟩
    rw [hr] at hmoment
    simp only [Op.run, hmoment, runCalls, List.map_nil, Op.runAll, List.append_nil, step]
    exact ⟨trivial, fun _ => trivial⟩
  · refine ⟨before, after, rfl, ?_⟩
    rw [runCalls_append] at hrun hend
    rw [hrun]
    rcases hb : runCalls before c with ⟨early, first⟩
    rw [hb] at hmoment hend
    rcases ha : runCalls after first with ⟨late, last⟩
    simp only [ha] at hend ⊢
    simp only [Op.run, hmoment, ha, hend, step]
    exact ⟨trivial, fun h => by cases h⟩

/-- A key that is replaced by an equal value and removed while its conditional removal is in its
gap, and put back afterwards. -/
def turnover : List Call :=
  [.replace "a" "1", .put "b" "2", .remove "a", .put "a" "1", .get "a"]

theorem interrupted_swap_turnover :
    let c := ((Op.call (.put "a" "1")).run deliver { capacity := 2 : Settings }.empty).2
    c.contains "a" = true ∧ ∃ before after, turnover = before ++ after ∧
      let (early, first) := runCalls before c
      let (step, second) := (Op.call (.removeIf "a" "1")).run deliver first
      let (late, last) := runCalls after second
      (Op.interrupted (.removeIf "a" "1") (turnover.map .call)).run deliver c =
          (last.step (.call (.removeIf "a" "1")) step.answer (some (early ++ late)), last) ∧
        (step.answer = .flag true → after = []) := by
  have hlive : ((Op.call (.put "a" "1")).run deliver
      { capacity := 2 : Settings }.empty).2.contains "a" = true := by cbv
  have hvisited : Visited .calls { capacity := 2 }
      ((Op.call (.put "a" "1")).run deliver { capacity := 2 : Settings }.empty).2 :=
    .ran rfl (.built rfl)
  exact ⟨hlive, interrupted_swap hvisited (by simp) .removal hlive turnover⟩

end Cache

end BoundedCache
