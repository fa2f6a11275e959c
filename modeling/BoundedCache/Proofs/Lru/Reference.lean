import BoundedCache.Cache.Run
import BoundedCache.Proofs.Engine.Live

namespace BoundedCache

structure Lru where
  capacity : Nat
  weigher : Weigher
  touchOnUpdate : Bool
  /-- Least recently used first. -/
  entries : List Entry := []
  /-- The reads that counted since the last write, clean-up, clearing or change of capacity. -/
  reads : Nat := 0

namespace Lru

def readLimit : Nat := 128

def weight (w : Weigher) (entries : List Entry) : Nat :=
  (entries.map fun pair => w.weight pair.value).sum

def without (key : Key) (entries : List Entry) : List Entry := entries.filter (·.key ≠ key)

def evict (w : Weigher) (capacity : Nat) : List Entry → List Entry × List Entry
  | [] => ([], [])
  | pair :: rest =>
    if weight w (pair :: rest) ≤ capacity then ([], pair :: rest)
    else
      let (victims, kept) := evict w capacity rest
      (pair :: victims, kept)

/-- What a call answers, which pairs it evicts and what it leaves. -/
structure Effect where
  answer : Answer Step
  victims : List Entry
  after : Lru

def get? (r : Lru) (key : Key) : Option Value := (r.entries.find? (·.key = key)).map (·.value)

/-- A read makes its pair the most recently used one, as long as reads count. -/
def read (r : Lru) (key : Key) (value : Value) : Lru :=
  if r.reads < readLimit then
    { r with entries := without key r.entries ++ [⟨key, value⟩], reads := r.reads + 1 }
  else r

def overwritten (r : Lru) (key : Key) (value : Value) : List Entry :=
  if r.touchOnUpdate then without key r.entries ++ [⟨key, value⟩]
  else r.entries.map fun pair => if pair.key = key then ⟨key, value⟩ else pair

def write (r : Lru) (answer : Answer Step) (entries : List Entry) : Effect :=
  let (victims, kept) := evict r.weigher r.capacity entries
  ⟨answer, victims, { r with entries := kept, reads := 0 }⟩

def weighing (r : Lru) (value : Value) (effect : Effect) : Effect :=
  match r.weigher value with
  | .error message => ⟨.refused message, [], r⟩
  | .ok _ => effect

/-- The effect of one call. The diagnostics have no counterpart. -/
def step (r : Lru) : Call → Effect
  | .get key =>
    match r.get? key with
    | none => ⟨.value none, [], r⟩
    | some value => ⟨.value (some value), [], r.read key value⟩
  | .getQuietly key => ⟨.value (r.get? key), [], r⟩
  | .contains key => ⟨.flag (r.get? key).isSome, [], r⟩
  | .put key value =>
    r.weighing value <|
      match r.get? key with
      | none => r.write (.value none) (r.entries ++ [⟨key, value⟩])
      | some last => r.write (.value (some last)) (r.overwritten key value)
  | .putIfAbsent key value =>
    r.weighing value <|
      match r.get? key with
      | none => r.write (.value none) (r.entries ++ [⟨key, value⟩])
      | some current => ⟨.value (some current), [], r.read key current⟩
  | .replace key value =>
    match r.get? key with
    | none => ⟨.value none, [], r⟩
    | some last => r.weighing value (r.write (.value (some last)) (r.overwritten key value))
  | .remove key =>
    match r.get? key with
    | none => ⟨.value none, [], r⟩
    | some last => r.write (.value (some last)) (without key r.entries)
  | .removeIf key expected =>
    match r.get? key with
    | none => ⟨.flag false, [], r⟩
    | some current =>
      if current = expected then r.write (.flag true) (without key r.entries)
      else ⟨.flag false, [], r⟩
  | .replaceIf key expected value =>
    match r.get? key with
    | none => ⟨.flag false, [], r⟩
    | some current =>
      r.weighing value <|
        if current = expected then r.write (.flag true) (r.overwritten key value)
        else ⟨.flag false, [], r⟩
  | .length => ⟨.count r.entries.length, [], r⟩
  | .isEmpty => ⟨.flag (r.entries.length == 0), [], r⟩
  | .weightedSize => ⟨.count (weight r.weigher r.entries), [], r⟩
  | .capacity => ⟨.count r.capacity, [], r⟩
  | .setCapacity limit =>
    if limit = 0 then ⟨.failed .invalidCapacity, [], r⟩
    else { r with capacity := limit }.write .done r.entries
  | .clear => ⟨.count r.entries.length, [], { r with entries := [], reads := 0 }⟩
  | .cleanUp => ⟨.done, [], { r with reads := 0 }⟩
  | .check | .metrics | .describe => ⟨.missing, [], r⟩

def Keeps (r r' : Lru) : Prop := r'.weigher = r.weigher ∧ r'.touchOnUpdate = r.touchOnUpdate

theorem keeps_read (r : Lru) (key : Key) (value : Value) : r.Keeps (r.read key value) := by
  unfold read
  split <;> exact ⟨rfl, rfl⟩

theorem keeps_weighing {r : Lru} (value : Value) {effect : Effect} (h : r.Keeps effect.after) :
    r.Keeps (r.weighing value effect).after := by
  unfold weighing
  cases r.weigher value with
  | ok weight => exact h
  | error message => exact ⟨rfl, rfl⟩

theorem keeps_step (r : Lru) (call : Call) : r.Keeps (r.step call).after := by
  cases call with
  | get key =>
    rw [step]
    cases r.get? key with
    | none => exact ⟨rfl, rfl⟩
    | some value => exact keeps_read r key value
  | put key value =>
    refine keeps_weighing value ?_
    cases r.get? key <;> exact ⟨rfl, rfl⟩
  | putIfAbsent key value =>
    refine keeps_weighing value ?_
    cases r.get? key with
    | none => exact ⟨rfl, rfl⟩
    | some current => exact keeps_read r key current
  | replace key value =>
    rw [step]
    cases r.get? key with
    | none => exact ⟨rfl, rfl⟩
    | some last => exact keeps_weighing value ⟨rfl, rfl⟩
  | remove key =>
    rw [step]
    cases r.get? key <;> exact ⟨rfl, rfl⟩
  | removeIf key expected =>
    rw [step]
    cases r.get? key with
    | none => exact ⟨rfl, rfl⟩
    | some current =>
      dsimp only
      split <;> exact ⟨rfl, rfl⟩
  | replaceIf key expected value =>
    rw [step]
    cases r.get? key with
    | none => exact ⟨rfl, rfl⟩
    | some current =>
      refine keeps_weighing value ?_
      split <;> exact ⟨rfl, rfl⟩
  | setCapacity limit =>
    rw [step]
    split <;> exact ⟨rfl, rfl⟩
  | _ => exact ⟨rfl, rfl⟩

theorem evict_of_fits {w : Weigher} {capacity : Nat} {entries : List Entry}
    (h : weight w entries ≤ capacity) : evict w capacity entries = ([], entries) := by
  cases entries with
  | nil => rfl
  | cons pair rest => exact if_pos h

theorem evict_cons_of_lt {w : Weigher} {capacity : Nat} {pair : Entry} {rest : List Entry}
    (h : capacity < weight w (pair :: rest)) :
    evict w capacity (pair :: rest) =
      (pair :: (evict w capacity rest).1, (evict w capacity rest).2) :=
  if_neg (Nat.not_le_of_lt h)

end Lru

def Call.diagnostic : Call → Bool
  | .check | .metrics | .describe => true
  | _ => false

/-- What is seen of one call from outside. -/
structure View where
  answer : Answer Step
  length : Nat
  weightedSize : Nat
  evicted : List Entry
  told : List Entry

def Report.view (r : Report) : View :=
  ⟨r.step.answer, r.step.length, r.step.weightedSize, r.drains.flatMap (·.victims),
    r.notices.map (·.entry)⟩

def Lru.Effect.view (listened : Bool) (x : Lru.Effect) : View :=
  ⟨x.answer, x.after.entries.length, Lru.weight x.after.weigher x.after.entries, x.victims,
    if listened then x.victims else []⟩

def Lru.run (listened : Bool) : List Call → Lru → List View × Lru
  | [], r => ([], r)
  | call :: rest, r =>
    let effect := r.step call
    let (views, last) := run listened rest effect.after
    (effect.view listened :: views, last)

def Settings.reference (s : Settings) : Lru :=
  { capacity := s.capacity, weigher := s.weigher, touchOnUpdate := s.touchOnUpdate }

end BoundedCache
