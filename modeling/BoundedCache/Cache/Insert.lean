import BoundedCache.Cache.Read

namespace BoundedCache

/-- The state of a call that may be interrupted: settled, or in the gap that it leaves. -/
inductive Progress (σ ρ : Type) where
  | settled (reply : ρ) (cache : Cache)
  | gap (rest : σ)

def Progress.finish {σ ρ : Type} (p : Progress σ ρ) (resume : σ → Cache → ρ × Cache) (c : Cache) :
    ρ × Cache :=
  match p with
  | .settled reply c => (reply, c)
  | .gap rest => resume rest c

inductive OnLive where
  | overwrite
  | keep
  deriving DecidableEq, Repr

inductive Vacancy where
  | unmapped
  | retired (node : NodeId)
  deriving DecidableEq, Repr

/-- An insertion that has weighed its value and has seen no live node, in the gap before its attempt
to map a new one. -/
structure Insertion where
  onLive : OnLive
  key : Key
  fresh : Held
  vacancy : Vacancy
  deriving DecidableEq, Repr

namespace Cache

def overwrite (courier : Courier) (id : NodeId) (fresh : Held) (c : Cache) :
    Option (Reply (Option Value) × Cache) :=
  (c.engine.pool.replace id fresh).map fun (previous, pool) =>
    ({ c with engine := { c.engine with pool } }.count
      fun n => { n with updates := n.updates + 1 }).finishWrite
        courier ⟨.update, id⟩ (some previous.value)

def meetLive (courier : Courier) (onLive : OnLive) (fresh : Held) (id : NodeId) (sight : Sight)
    (c : Cache) : Option (Reply (Option Value) × Cache) :=
  match onLive with
  | .overwrite => c.overwrite courier id fresh
  | .keep => some (.returned (some sight.held.value), c.recordRead id)

/-- Maps a key to a new node, if what was seen there is still there. -/
def mapFresh? (key : Key) (fresh : Held) (vacancy : Vacancy) (c : Cache) : Option Cache :=
  let e := c.engine
  let store := match vacancy with
    | .unmapped => (e.store.insertIfAbsent key e.pool.next).toOption
    | .retired id => e.store.replaceIfMatch key id e.pool.next
  store.map fun store => { c with engine := { e with store, pool := e.pool.add key fresh } }

/-- The attempt of an insertion to map its new node. None if the mapping has changed. -/
def occupy (courier : Courier) (i : Insertion) (c : Cache) :
    Option (Reply (Option Value) × Cache) :=
  (c.mapFresh? i.key i.fresh i.vacancy).map fun next =>
    (next.count fun n => { n with inserts := n.inserts + 1 }).finishWrite
      courier ⟨.add, c.engine.pool.next⟩ none

def seek (courier : Courier) (onLive : OnLive) (key : Key) (fresh : Held) (c : Cache) :
    Progress Insertion (Reply (Option Value)) :=
  match c.sight key with
  | .unmapped => .gap ⟨onLive, key, fresh, .unmapped⟩
  | .retired id => .gap ⟨onLive, key, fresh, .retired id⟩
  | .live id sight =>
    let (reply, c) := (c.meetLive courier onLive fresh id sight).getD (.blocked, c)
    .settled reply c

def startInsert (courier : Courier) (onLive : OnLive) (key : Key) (value : Value) (c : Cache) :
    Progress Insertion (Reply (Option Value)) :=
  match c.weigh value with
  | .error message => .settled (.refused message) c
  | .ok fresh => c.seek courier onLive key fresh

/-- An insertion with a weighed value that nothing comes between. What its look has found is still
there at the attempt, so the attempt does not fail. -/
def insertNow (courier : Courier) (onLive : OnLive) (key : Key) (fresh : Held) (c : Cache) :
    Reply (Option Value) × Cache :=
  (c.seek courier onLive key fresh).finish
    (fun i c => (c.occupy courier i).getD (.blocked, c)) c

/-- Goes on with an insertion after the gap. If the mapping has changed meanwhile it looks again. -/
def resumeInsert (courier : Courier) (i : Insertion) (c : Cache) : Reply (Option Value) × Cache :=
  (c.occupy courier i).getD (c.insertNow courier i.onLive i.key i.fresh)

def put (courier : Courier) (key : Key) (value : Value) (c : Cache) :
    Reply (Option Value) × Cache :=
  (c.startInsert courier .overwrite key value).finish (resumeInsert courier) c

def putIfAbsent (courier : Courier) (key : Key) (value : Value) (c : Cache) :
    Reply (Option Value) × Cache :=
  (c.startInsert courier .keep key value).finish (resumeInsert courier) c

theorem sight_eq_unmapped_iff {c : Cache} {key : Key} :
    c.sight key = .unmapped ↔ c.engine.store.get? key = none := by
  unfold sight
  split
  · simp_all
  · split <;> simp_all

theorem get?_of_sight_retired {c : Cache} {key : Key} {id : NodeId}
    (h : c.sight key = .retired id) : c.engine.store.get? key = some id := by
  unfold sight at h
  split at h
  · cases h
  · split at h
    · cases h
      assumption
    · cases h

/-- What a look has found is still there. -/
theorem isSome_mapFresh?_of_unmapped {c : Cache} {key : Key} (h : c.sight key = .unmapped)
    (fresh : Held) : (c.mapFresh? key fresh .unmapped).isSome := by
  simp [mapFresh?, Store.insertIfAbsent, sight_eq_unmapped_iff.mp h, Except.toOption]

theorem isSome_mapFresh?_of_retired {c : Cache} {key : Key} {id : NodeId}
    (h : c.sight key = .retired id) (fresh : Held) :
    (c.mapFresh? key fresh (.retired id)).isSome := by
  simp [mapFresh?, Store.replaceIfMatch, get?_of_sight_retired h]

/-- An attempt that follows the look at once does not fail. -/
theorem isSome_occupy_of_seek {courier : Courier} {c : Cache} {onLive : OnLive} {key : Key}
    {fresh : Held} {i : Insertion} (h : c.seek courier onLive key fresh = .gap i) :
    (c.occupy courier i).isSome := by
  unfold seek at h
  split at h
  · cases h
    simpa [occupy] using isSome_mapFresh?_of_unmapped ‹_› fresh
  · cases h
    simpa [occupy] using isSome_mapFresh?_of_retired ‹_› fresh
  · cases h

/-- An insertion that nothing comes between makes one attempt. -/
theorem finish_startInsert (courier : Courier) (onLive : OnLive) (key : Key) (value : Value)
    (c : Cache) :
    (c.startInsert courier onLive key value).finish (resumeInsert courier) c =
      match c.weigh value with
      | .error message => (.refused message, c)
      | .ok fresh => c.insertNow courier onLive key fresh := by
  unfold startInsert
  cases c.weigh value with
  | error message => rfl
  | ok fresh =>
    simp only [insertNow]
    cases hs : c.seek courier onLive key fresh with
    | settled reply next => rfl
    | gap i =>
      obtain ⟨r, hr⟩ := Option.isSome_iff_exists.mp (isSome_occupy_of_seek hs)
      simp [Progress.finish, resumeInsert, hr]

end Cache

end BoundedCache
