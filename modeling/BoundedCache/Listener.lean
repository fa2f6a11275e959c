import BoundedCache.Relay

namespace BoundedCache

structure Listener (σ : Type) where
  failing : List (Key × Payload) := []
  scripts : List (Key × List σ) := []

namespace Payload

def fixed : Payload := .text "static listener failure"

def naming (key : Key) : Payload := .text ("listener rejected " ++ key)

end Payload

namespace Listener

variable {σ : Type}

def nextScript (key : Key) : List (Key × List σ) → Option (σ × List (Key × List σ))
  | [] => none
  | (k, scripts) :: rest =>
    if k = key then
      match scripts with
      | [] => none
      | script :: later => some (script, (k, later) :: rest)
    else (nextScript key rest).map fun (script, rest) => (script, (k, scripts) :: rest)

/-- A key on which the listener fails gets no script. -/
def respond (l : Listener σ) (e : Entry) : Response σ × Listener σ :=
  match l.failing.lookup e.key with
  | some payload => ({ payload := some payload }, l)
  | none =>
    match nextScript e.key l.scripts with
    | none => ({}, l)
    | some (script, rest) => ({ script := some script }, { l with scripts := rest })

def supply (l : Listener σ) : Nat := (l.scripts.flatMap (·.2)).length

theorem length_nextScript {key : Key} {scripts rest : List (Key × List σ)} {script : σ}
    (h : nextScript key scripts = some (script, rest)) :
    (rest.flatMap (·.2)).length + 1 = (scripts.flatMap (·.2)).length := by
  induction scripts generalizing rest with
  | nil => cases h
  | cons p tail ih =>
    obtain ⟨k, own⟩ := p
    unfold nextScript at h
    split at h
    · cases own with
      | nil => cases h
      | cons s later =>
        cases h
        simp only [List.flatMap_cons, List.length_append, List.length_cons]
        omega
    · obtain ⟨⟨s, r⟩, hs, he⟩ := Option.map_eq_some_iff.mp h
      cases he
      have := ih hs
      simp only [List.flatMap_cons, List.length_append]
      omega

theorem supply_respond (l : Listener σ) (e : Entry) :
    (l.respond e).2.supply + (l.respond e).1.script.toList.length = l.supply := by
  unfold respond
  split
  · simp
  · split
    · simp
    · rename_i h
      simpa [supply] using length_nextScript h

instance : Listens (Listener σ) σ where
  respond := respond
  supply := supply
  supply_le l e := by
    have := supply_respond l e
    omega
  supply_lt l e h := by
    have := supply_respond l e
    obtain ⟨s, hs⟩ := Option.isSome_iff_exists.mp h
    simp only [hs, Option.toList_some, List.length_singleton] at this
    omega

end Listener

end BoundedCache
