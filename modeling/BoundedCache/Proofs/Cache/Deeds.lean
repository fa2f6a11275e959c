import Mathlib.Data.List.Perm.Basic
import BoundedCache.Cache.Run

namespace BoundedCache

/-- A call or probe with what it answered. -/
structure Deed where
  act : Act
  answer : Answer Step

def Deed.returned (d : Deed) : Bool :=
  match d.answer with
  | .blocked => false
  | _ => true

mutual

/-- The calls and probes of an operation, those that ran inside it first. -/
def Step.deeds : Step → List Deed
  | ⟨act, answer, _, _, meanwhile⟩ =>
    match act with
    | .block => answer.deeds
    | .call _ | .probe _ =>
      match meanwhile with
      | none => [⟨act, answer⟩]
      | some steps => Step.allDeeds steps ++ [⟨act, answer⟩]

def Answer.deeds : Answer Step → List Deed
  | .steps steps => Step.allDeeds steps
  | .discarded _ steps => Step.allDeeds steps
  | _ => []

def Step.allDeeds : List Step → List Deed
  | [] => []
  | step :: rest => step.deeds ++ Step.allDeeds rest

end

theorem Step.allDeeds_append (steps later : List Step) :
    Step.allDeeds (steps ++ later) = Step.allDeeds steps ++ Step.allDeeds later := by
  induction steps with
  | nil => rfl
  | cons step steps ih => rw [List.cons_append, Step.allDeeds, ih, Step.allDeeds, List.append_assoc]

def Notice.deeds (n : Notice (List Step)) : List Deed :=
  match n.reaction with
  | none => []
  | some steps => Step.allDeeds steps

def Report.deeds (r : Report) : List Deed := r.step.deeds ++ r.notices.flatMap Notice.deeds

namespace Cache

def reactions (c : Cache) : List Deed := c.relay.notices.flatMap Notice.deeds

def told (c : Cache) : List Entry := c.relay.notices.map (·.entry)

/-- What holds of every deed in the reports of a run holds of the operations and of the reactions.
-/
theorem forall_deeds {c : Cache} {reports : List Report} {p : Deed → Prop}
    (hnotices : c.relay.notices = reports.flatMap (·.notices))
    (h : ∀ d ∈ reports.flatMap Report.deeds, p d) :
    (∀ d ∈ reports.flatMap (·.step.deeds), p d) ∧ ∀ d ∈ c.reactions, p d := by
  constructor
  · intro d hd
    obtain ⟨r, hr, hd⟩ := List.mem_flatMap.mp hd
    exact h d (List.mem_flatMap.mpr ⟨r, hr, List.mem_append_left _ hd⟩)
  · intro d hd
    rw [reactions, hnotices] at hd
    obtain ⟨n, hn, hd⟩ := List.mem_flatMap.mp hd
    obtain ⟨r, hr, hn⟩ := List.mem_flatMap.mp hn
    have hdeeds := List.mem_append_right r.step.deeds (List.mem_flatMap.mpr ⟨n, hn, hd⟩)
    exact h d (List.mem_flatMap.mpr ⟨r, hr, hdeeds⟩)

/-- The deeds of the reports are those of the operations and those of the reactions. -/
theorem perm_deeds {c : Cache} {reports : List Report}
    (h : c.relay.notices = reports.flatMap (·.notices)) :
    (reports.flatMap Report.deeds).Perm (reports.flatMap (·.step.deeds) ++ c.reactions) := by
  have hreactions : c.reactions = reports.flatMap (·.notices.flatMap Notice.deeds) := by
    rw [reactions, h]
    exact List.flatMap_assoc
  rw [hreactions]
  exact (List.flatMap_append_perm _ _ _).symm

end Cache

namespace Call

def gain (call : Call) (answer : Answer Step) : Option Entry :=
  match call, answer with
  | .put key value, .value _ => some ⟨key, value⟩
  | .putIfAbsent key value, .value none => some ⟨key, value⟩
  | .replace key value, .value (some _) => some ⟨key, value⟩
  | .replaceIf key _ value, .flag true => some ⟨key, value⟩
  | _, _ => none

/-- The pair that a call has handed to its caller, if it has: a conditional call that went through
has taken the expected value. -/
def loss (call : Call) (answer : Answer Step) : Option Entry :=
  match call, answer with
  | .put key _, .value (some last) => some ⟨key, last⟩
  | .replace key _, .value (some last) => some ⟨key, last⟩
  | .remove key, .value (some last) => some ⟨key, last⟩
  | .removeIf key expected, .flag true => some ⟨key, expected⟩
  | .replaceIf key expected _, .flag true => some ⟨key, expected⟩
  | _, _ => none

def gets (call : Call) (_ : Answer Step) : Bool :=
  match call with
  | .get _ => true
  | _ => false

def keeps (call : Call) (answer : Answer Step) : Bool :=
  match call, answer with
  | .putIfAbsent .., .value (some _) => true
  | _, _ => false

def touches (call : Call) (answer : Answer Step) : Bool :=
  match call, answer with
  | .get _, .value (some _) | .putIfAbsent .., .value (some _) => true
  | _, _ => false

def replaces (call : Call) (answer : Answer Step) : Bool :=
  match call, answer with
  | .put .., .value (some _) | .replace .., .value (some _) | .replaceIf .., .flag true => true
  | _, _ => false

def locks : Call → Bool
  | .setCapacity _ | .clear | .cleanUp => true
  | _ => false

/-- The call has made a write, and waits for ever for room for its event. -/
def stalls (call : Call) (answer : Answer Step) : Bool :=
  match call, answer with
  | .put .., .blocked | .putIfAbsent .., .blocked | .replace .., .blocked | .remove _, .blocked
  | .removeIf .., .blocked | .replaceIf .., .blocked => true
  | _, _ => false

/-- The call can answer so without having touched a node. -/
def idles (call : Call) (answer : Answer Step) : Bool :=
  match call, answer with
  | .get _, .value none => true
  | .get _, _ | .putIfAbsent .., .value (some _) | .clear, _ => false
  | call, answer => !call.stalls answer

/-- What the counters make of an answer. Evictions, drains and dropped reads are not counted by
answers. -/
def tally (call : Call) (answer : Answer Step) (n : Counters) : Counters :=
  match call, answer with
  | .get _, .value none => { n with misses := n.misses + 1 }
  | .get _, .value (some _) => { n with hits := n.hits + 1 }
  | .put .., .value none | .putIfAbsent .., .value none => { n with inserts := n.inserts + 1 }
  | .put .., .value (some _) | .replace .., .value (some _) | .replaceIf .., .flag true =>
    { n with updates := n.updates + 1 }
  | .remove _, .value (some _) | .removeIf .., .flag true => { n with removals := n.removals + 1 }
  | _, _ => n

variable {call : Call} {answer : Answer Step}

theorem touches_eq_false_of_idles (h : call.idles answer = true) : call.touches answer = false := by
  refine Bool.eq_false_iff.mpr fun ht => ?_
  unfold touches at ht
  split at ht <;> cases ht <;> cases h

theorem keeps_eq_false_of_touches (h : call.touches answer = false) : call.keeps answer = false := by
  refine Bool.eq_false_iff.mpr fun hk => ?_
  unfold keeps at hk
  split at hk <;> cases hk
  cases h

theorem stalls_eq_false_of_idles (h : call.idles answer = true) : call.stalls answer = false := by
  refine Bool.eq_false_iff.mpr fun hs => ?_
  unfold stalls at hs
  split at hs <;> cases hs <;> cases h

theorem replaces_eq_false_of_gain (h : call.gain answer = none) : call.replaces answer = false := by
  refine Bool.eq_false_iff.mpr fun hr => ?_
  unfold replaces at hr
  split at hr <;> cases hr <;> cases h

/-- A call that touches no node counts at most a miss. -/
theorem tally_of_idles (hg : call.gain answer = none) (hl : call.loss answer = none)
    (hi : call.idles answer = true) (n : Counters) :
    call.tally answer n = if call.gets answer then { n with misses := n.misses + 1 } else n := by
  cases call with
  | get =>
    cases answer with
    | value found => cases found with
      | none => rfl
      | some => cases hi
    | _ => cases hi
  | put | putIfAbsent | replace | replaceIf | remove | removeIf =>
    cases answer with
    | value found => cases found <;> first | rfl | (cases hg; done) | cases hl
    | flag went => cases went <;> first | rfl | (cases hg; done) | cases hl
    | _ => rfl
  | _ => rfl

/-- A read that found a node counts as a hit, or keeps the value that it found. -/
theorem tally_of_touches (h : call.touches answer = true) (n : Counters) :
    call.replaces answer = false ∧ call.stalls answer = false ∧
      call.keeps answer = !call.gets answer ∧
      call.tally answer n = if call.gets answer then { n with hits := n.hits + 1 } else n := by
  unfold touches at h
  split at h
  · exact ⟨rfl, rfl, rfl, rfl⟩
  · exact ⟨rfl, rfl, rfl, rfl⟩
  · cases h

/-- A call that has put in a pair or handed one out is no read, and it has come to its end, as it
need not have. -/
theorem sorts_of_writes (h : call.gain answer ≠ none ∨ call.loss answer ≠ none) :
    call.gets answer = false ∧ call.keeps answer = false ∧ call.touches answer = false ∧
      call.stalls answer = false ∧ call.stalls .blocked = true := by
  rcases h with h | h
  · unfold gain at h
    split at h <;> first | exact ⟨rfl, rfl, rfl, rfl, rfl⟩ | exact absurd rfl h
  · unfold loss at h
    split at h <;> first | exact ⟨rfl, rfl, rfl, rfl, rfl⟩ | exact absurd rfl h

/-- What a write is counted as shows in the pairs that it moves. -/
theorem tally_of_writes {new old : Option Entry} (hg : call.gain answer = new)
    (hl : call.loss answer = old) (n : Counters) :
    call.replaces answer = (new.isSome && old.isSome) ∧
      ((new.isSome || old.isSome) = true → call.tally answer n =
        { n with
          inserts := n.inserts + (new.isSome && old.isNone).toNat
          updates := n.updates + (new.isSome && old.isSome).toNat
          removals := n.removals + (new.isNone && old.isSome).toNat }) := by
  subst hg hl
  cases call with
  | put | putIfAbsent | replace | replaceIf | remove | removeIf =>
    cases answer with
    | value found => cases found <;> exact ⟨rfl, fun _ => rfl⟩
    | flag went => cases went <;> exact ⟨rfl, fun _ => rfl⟩
    | _ => exact ⟨rfl, fun h => by cases h⟩
  | _ => exact ⟨rfl, fun h => by cases h⟩

end Call

theorem Call.moves_blocked (call : Call) :
    call.gain .blocked = none ∧ call.loss .blocked = none := by
  cases call <;> exact ⟨rfl, rfl⟩

def Deed.gain (d : Deed) : Option Entry :=
  match d.act with
  | .call call => call.gain d.answer
  | _ => none

def Deed.loss (d : Deed) : Option Entry :=
  match d.act with
  | .call call => call.loss d.answer
  | _ => none

def Deed.does (kind : Call → Answer Step → Bool) (d : Deed) : Bool :=
  match d.act with
  | .call call => kind call d.answer
  | _ => false

/-- The deed is no write that waits for ever. -/
def Deed.ended (d : Deed) : Bool := !d.does Call.stalls

theorem Deed.ended_of_returned {d : Deed} (h : d.returned = true) : d.ended = true := by
  obtain ⟨act, answer⟩ := d
  cases act with
  | call call =>
    cases answer with
    | blocked => cases h
    | _ => cases call <;> rfl
  | _ => rfl

theorem countP_stalls_of_returned {ds : List Deed} (h : ∀ d ∈ ds, d.returned = true) :
    ds.countP (·.does Call.stalls) = 0 := by
  refine List.countP_eq_zero.mpr fun d hd => ?_
  have hended := Deed.ended_of_returned (h d hd)
  simpa [Deed.ended] using hended

end BoundedCache
