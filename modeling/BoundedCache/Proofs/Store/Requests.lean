import Mathlib.Data.Set.Card
import BoundedCache.Proofs.Store

namespace BoundedCache

def Pool.key? (p : Pool) (id : NodeId) : Option Key := (p.node? id).map (·.key)

theorem Pool.Grows.key?_eq {p q : Pool} {id : NodeId} {key : Key} (h : p.Grows q)
    (hk : p.key? id = some key) : q.key? id = some key := by
  obtain ⟨n, hn, rfl⟩ := Option.map_eq_some_iff.mp hk
  obtain ⟨m, hm, hnm⟩ := h id n hn
  rw [Pool.key?, hm, Option.map_some, hnm.key]

namespace Store

inductive Request where
  | insertIfAbsent (key : Key) (node : NodeId)
  | remove (key : Key)
  | removeIfMatch (key : Key) (expected : NodeId)
  | replaceIfMatch (key : Key) (expected node : NodeId)
  deriving DecidableEq, Repr

inductive Reply where
  | resident (node : Option NodeId)
  | matched (flag : Bool)
  deriving DecidableEq, Repr

def ask (s : Store) : Request → Reply × Store
  | .insertIfAbsent key node =>
    match s.insertIfAbsent key node with
    | .error resident => (.resident (some resident), s)
    | .ok s => (.resident none, s)
  | .remove key =>
    match s.remove key with
    | none => (.resident none, s)
    | some (node, s) => (.resident (some node), s)
  | .removeIfMatch key expected =>
    match s.removeIfMatch key expected with
    | none => (.matched false, s)
    | some s => (.matched true, s)
  | .replaceIfMatch key expected node =>
    match s.replaceIfMatch key expected node with
    | none => (.matched false, s)
    | some s => (.matched true, s)

def askAll (requests : List Request) (s : Store) : Store :=
  requests.foldl (fun s request => (s.ask request).2) s

namespace Request

def key : Request → Key
  | .insertIfAbsent key _ | .remove key | .removeIfMatch key _ | .replaceIfMatch key _ _ => key

def node? : Request → Option NodeId
  | .insertIfAbsent _ node | .replaceIfMatch _ _ node => some node
  | .remove _ | .removeIfMatch _ _ => none

/-- A node that is to be mapped exists and is mapped under its own key. -/
def Carries (p : Pool) (r : Request) : Prop := ∀ id ∈ r.node?, p.key? id = some r.key

/-- What a request does to a function from keys to nodes. -/
def onMap (m : Key → Option NodeId) : Request → Reply × (Key → Option NodeId)
  | .insertIfAbsent key node =>
    (.resident (m key), if (m key).isSome then m else Function.update m key (some node))
  | .remove key => (.resident (m key), Function.update m key none)
  | .removeIfMatch key expected =>
    if m key = some expected then (.matched true, Function.update m key none)
    else (.matched false, m)
  | .replaceIfMatch key expected node =>
    if m key = some expected then (.matched true, Function.update m key (some node))
    else (.matched false, m)

/-- A request touches no other key than its own. -/
theorem onMap_of_ne {m : Key → Option NodeId} {r : Request} {other : Key} (h : other ≠ r.key) :
    (r.onMap m).2 other = m other := by
  cases r with
  | remove k => exact Function.update_of_ne h none m
  | insertIfAbsent k node =>
    rw [onMap]
    split
    · rfl
    · exact Function.update_of_ne h (some node) m
  | removeIfMatch k expected =>
    rw [onMap]
    split
    · exact Function.update_of_ne h none m
    · rfl
  | replaceIfMatch k expected node =>
    rw [onMap]
    split
    · exact Function.update_of_ne h (some node) m
    · rfl

/-- What a request leaves its key mapped to, if anything, is what it was mapped to or the node that
the request brings. -/
theorem onMap_key {m : Key → Option NodeId} {r : Request} {id : NodeId}
    (h : (r.onMap m).2 r.key = some id) : m r.key = some id ∨ r.node? = some id := by
  cases r with
  | remove k => simp [onMap, key] at h
  | insertIfAbsent k node =>
    by_cases hm : (m k).isSome <;> simp_all [onMap, key, node?]
  | removeIfMatch k expected =>
    by_cases hm : m k = some expected <;> simp_all [onMap, key]
  | replaceIfMatch k expected node =>
    by_cases hm : m k = some expected <;> simp_all [onMap, key, node?]

theorem Carries.grows {p q : Pool} {r : Request} (h : r.Carries p) (hq : p.Grows q) :
    r.Carries q :=
  fun id hid => hq.key?_eq (h id hid)

end Request

def domain (s : Store) : Set Key := {key | (s.get? key).isSome}

/-- A finite map that respects the identity of nodes. -/
structure Faithful (s : Store) (p : Pool) : Prop where
  finite : s.domain.Finite
  size : s.size = s.domain.ncard
  nodup : s.nodes.Nodup
  mem_nodes : ∀ id, id ∈ s.nodes ↔ ∃ key, s.get? key = some id
  keyed : ∀ key id, s.get? key = some id → p.key? id = some key
  answers : ∀ request, ((s.ask request).1, (s.ask request).2.get?) = request.onMap s.get?
  refuses : ∀ key id, s.get? key ≠ some id →
    s.ask (.removeIfMatch key id) = (.matched false, s) ∧
      ∀ node, s.ask (.replaceIfMatch key id node) = (.matched false, s)
  spares : ∀ request key, key ≠ request.key → (s.ask request).2.get? key = s.get? key

variable {s t : Store} {p : Pool} {key : Key} {id node : NodeId} {request : Request}
  {requests : List Request}

theorem get?_eq_update {m : Option NodeId}
    (h : ∀ other, t.get? other = if other = key then m else s.get? other) :
    t.get? = Function.update s.get? key m := by
  funext other
  rw [h, Function.update_apply]

/-- The store replies and maps as the function does that it stands for. -/
theorem ask_eq_onMap (s : Store) (request : Request) :
    ((s.ask request).1, (s.ask request).2.get?) = request.onMap s.get? := by
  cases request with
  | insertIfAbsent key node =>
    cases ht : s.insertIfAbsent key node with
    | error resident =>
      have hk : s.get? key = some resident := by
        unfold Store.insertIfAbsent at ht
        split at ht
        · rename_i hk
          cases ht
          exact hk
        · cases ht
      simp [ask, ht, Request.onMap, hk]
    | ok t =>
      have hk := (insertIfAbsent_eq_ok ht).1
      simp [ask, ht, Request.onMap, hk, get?_eq_update (get?_insertIfAbsent ht)]
  | remove key =>
    cases hr : s.remove key with
    | none =>
      have hk := remove_eq_none_iff.mp hr
      have hsame : Function.update s.get? key none = s.get? := by simp [← hk]
      simp [ask, hr, Request.onMap, hk, hsame]
    | some result =>
      obtain ⟨node, t⟩ := result
      have ht := remove_eq_some_iff.mp hr
      have hk := get?_of_removeIfMatch ht
      simp [ask, hr, Request.onMap, hk, get?_eq_update (get?_removeIfMatch ht)]
  | removeIfMatch key expected =>
    cases ht : s.removeIfMatch key expected with
    | none =>
      have hk : s.get? key ≠ some expected := fun hk => by simp [Store.removeIfMatch, hk] at ht
      simp [ask, ht, Request.onMap, hk]
    | some t =>
      have hk := get?_of_removeIfMatch ht
      simp [ask, ht, Request.onMap, hk, get?_eq_update (get?_removeIfMatch ht)]
  | replaceIfMatch key expected node =>
    cases ht : s.replaceIfMatch key expected node with
    | none =>
      have hk : s.get? key ≠ some expected := fun hk => by simp [Store.replaceIfMatch, hk] at ht
      simp [ask, ht, Request.onMap, hk]
    | some t =>
      have hk := get?_of_replaceIfMatch ht
      simp [ask, ht, Request.onMap, hk, get?_eq_update (get?_replaceIfMatch ht)]

theorem get?_ask (s : Store) (request : Request) :
    (s.ask request).2.get? = (request.onMap s.get?).2 :=
  congrArg Prod.snd (ask_eq_onMap s request)

theorem Counted.ask (h : s.Counted) (request : Request) : (s.ask request).2.Counted := by
  cases request with
  | insertIfAbsent key node =>
    cases ht : s.insertIfAbsent key node with
    | error resident => simpa [Store.ask, ht] using h
    | ok t => simpa [Store.ask, ht] using h.insertIfAbsent ht
  | remove key =>
    cases hr : s.remove key with
    | none => simpa [Store.ask, hr] using h
    | some result => simpa [Store.ask, hr] using h.removeIfMatch (remove_eq_some_iff.mp hr)
  | removeIfMatch key expected =>
    cases ht : s.removeIfMatch key expected with
    | none => simpa [Store.ask, ht] using h
    | some t => simpa [Store.ask, ht] using h.removeIfMatch ht
  | replaceIfMatch key expected node =>
    cases ht : s.replaceIfMatch key expected node with
    | none => simpa [Store.ask, ht] using h
    | some t => simpa [Store.ask, ht] using h.replaceIfMatch ht

def Keyed (s : Store) (p : Pool) : Prop := ∀ key id, s.get? key = some id → p.key? id = some key

theorem Keyed.ask (h : s.Keyed p) (hr : request.Carries p) : (s.ask request).2.Keyed p := by
  intro key id hg
  rw [get?_ask] at hg
  by_cases hkey : key = request.key
  · subst hkey
    rcases Request.onMap_key hg with hold | hnew
    · exact h _ id hold
    · exact hr id hnew
  · rw [Request.onMap_of_ne hkey] at hg
    exact h key id hg

theorem askAll_append (first later : List Request) (s : Store) :
    askAll (first ++ later) s = askAll later (askAll first s) :=
  List.foldl_append

theorem Counted.askAll (h : s.Counted) (requests : List Request) :
    (askAll requests s).Counted := by
  induction requests generalizing s with
  | nil => exact h
  | cons request rest ih => exact ih (h.ask request)

theorem Keyed.askAll (h : s.Keyed p) (hr : ∀ r ∈ requests, r.Carries p) :
    (askAll requests s).Keyed p := by
  induction requests generalizing s with
  | nil => exact h
  | cons request rest ih =>
    obtain ⟨hfirst, hrest⟩ := List.forall_mem_cons.mp hr
    exact ih (h.ask hfirst) hrest

theorem Counted.domain_eq (h : s.Counted) :
    s.domain = ((s.entries.map (·.1)).toFinset : Set Key) := by
  ext key
  have hmapped : key ∈ s.domain ↔ ∃ id, s.get? key = some id := Option.isSome_iff_exists
  simp only [hmapped, ← h.mem_iff, List.coe_toFinset, List.mem_map, Prod.exists, exists_and_right,
    exists_eq_right, Set.mem_ofPred_eq]

/-- The counter is the number of mapped keys. -/
theorem Counted.size_eq_ncard (h : s.Counted) : s.size = s.domain.ncard := by
  rw [h.domain_eq, Set.ncard_coe_finset, List.toFinset_card_of_nodup h.nodup, List.length_map, h.size]

theorem Counted.mem_nodes_iff (h : s.Counted) : id ∈ s.nodes ↔ ∃ key, s.get? key = some id := by
  simp only [nodes, List.mem_map, Prod.exists, exists_eq_right, h.mem_iff]

/-- A node that bears one key only is mapped once only. -/
theorem Counted.nodup_nodes (h : s.Counted) (hk : s.Keyed p) : s.nodes.Nodup := by
  have hkeys : s.nodes.map p.key? = (s.entries.map (·.1)).map some := by
    rw [nodes, List.map_map, List.map_map]
    exact List.map_congr_left fun m hm => hk m.1 m.2 (h.mem_iff.mp hm)
  have hnodup : (s.nodes.map p.key?).Nodup := hkeys ▸ h.nodup.map (Option.some_injective Key)
  exact hnodup.of_map

theorem Counted.faithful (h : s.Counted) (hk : s.Keyed p) : s.Faithful p where
  finite := h.domain_eq ▸ Finset.finite_toSet _
  size := h.size_eq_ncard
  nodup := h.nodup_nodes hk
  mem_nodes _ := h.mem_nodes_iff
  keyed := hk
  answers := ask_eq_onMap s
  refuses key id hne := by
    have hremove : s.removeIfMatch key id = none := if_neg hne
    refine ⟨by simp only [Store.ask, hremove], fun node => ?_⟩
    have hreplace : s.replaceIfMatch key id node = none := if_neg hne
    simp only [Store.ask, hreplace]
  spares request key hne := by rw [get?_ask, Request.onMap_of_ne hne]

/-- Whatever was asked of it, a store is a finite map, if nodes were mapped under their own keys. -/
theorem faithful_askAll (hr : ∀ r ∈ requests, r.Carries p) : (askAll requests {}).Faithful p := by
  have hkeyed : Keyed {} p := fun key id hg => by simp [get?] at hg
  exact (Counted.empty.askAll requests).faithful (hkeyed.askAll hr)

end Store

end BoundedCache
