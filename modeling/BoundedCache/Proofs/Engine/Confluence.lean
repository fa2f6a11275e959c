import Mathlib
import BoundedCache.Proofs.Engine.Recency

namespace BoundedCache

namespace EventKind

variable {held : Option Held} {w : Option Weight} {kind : EventKind} {kinds : List EventKind}

/-- What the replay of an event makes of the link of its node, given what the node holds. -/
def relink (held : Option Held) (w : Option Weight) : EventKind → Option Weight
  | .read => w
  | .add => w.or (held.map (·.weight))
  | .update => w.map fun w => (held.map (·.weight)).getD w
  | .remove => none

/-- The kind of event that a node still needs, for its link to be what it should be. -/
def lacking : Option Held → Option Weight → Option EventKind
  | some _, none => some .add
  | some held, some w => if held.weight = w then none else some .update
  | none, some _ => some .remove
  | none, none => none

/-- A node lacks nothing if it is linked with its weight, or retired and not linked. -/
theorem lacking_eq_none_iff : lacking held w = none ↔ w = held.map (·.weight) := by
  cases held with
  | none => cases w <;> simp [lacking]
  | some held =>
    cases w with
    | none => simp [lacking]
    | some w => simp [lacking, eq_comm]

/-- The event that is lacking settles its node, any other one leaves it lacking the same. -/
theorem lacking_relink (h : kind = .remove → held = none) :
    lacking held (kind.relink held w) =
      if lacking held w = some kind then none else lacking held w := by
  cases kind with
  | read =>
    rw [relink, if_neg]
    cases held <;> cases w <;> grind [lacking]
  | add => cases held <;> cases w <;> grind [lacking, relink]
  | update => cases held <;> cases w <;> grind [lacking, relink]
  | remove =>
    rw [h rfl]
    cases w <;> rfl

/-- With the event that is lacking among them, events settle their node in any order. -/
theorem foldl_relink (hr : .remove ∈ kinds → held = none)
    (hl : ∀ kind, lacking held w = some kind → kind ∈ kinds) :
    kinds.foldl (relink held) w = held.map (·.weight) := by
  induction kinds generalizing w with
  | nil =>
    refine lacking_eq_none_iff.mp ?_
    cases hw : lacking held w with
    | none => exact hw
    | some kind => exact absurd (hl kind hw) List.not_mem_nil
  | cons kind kinds ih =>
    refine ih (fun hk => hr (List.mem_cons_of_mem _ hk)) fun other ho => ?_
    rw [lacking_relink fun hk => hr (hk ▸ List.mem_cons_self)] at ho
    split at ho
    · cases ho
    · rename_i hne
      rcases List.mem_cons.mp (hl other ho) with rfl | hm
      · exact absurd ho hne
      · exact hm

end EventKind

namespace Engine

variable {e : Engine} {events order : List Event} {nodes : List NodeId}

/-- An event has a say in the link of its node only. -/
theorem weightOf?_apply (h : e.deque.WellFormed) (ev : Event) (id : NodeId) :
    (e.apply ev).deque.weightOf? id =
      if id = ev.node then ev.kind.relink (e.pool.held ev.node) (e.deque.weightOf? ev.node)
      else e.deque.weightOf? id := by
  obtain ⟨kind, node⟩ := ev
  -- An event that does nothing to the deque is one that leaves the link as it is.
  have same (hk : kind.relink (e.pool.held node) (e.deque.weightOf? node) =
      e.deque.weightOf? node) : e.deque.weightOf? id =
        if id = node then kind.relink (e.pool.held node) (e.deque.weightOf? node)
        else e.deque.weightOf? id := by
    rw [hk]
    split <;> simp_all
  dsimp only [apply]
  generalize e.pool.held node = held at same ⊢
  cases hs : e.deque.slotOf node with
  | none =>
    have hw : e.deque.weightOf? node = none := Deque.weightOf?_eq_none_iff.mpr hs
    cases kind with
    | read | update | remove => exact same (by simp [EventKind.relink, hw])
    | add =>
      cases held with
      | none => exact same (by simp [EventKind.relink])
      | some held =>
        rw [hw]
        exact (h.pushBack hs held.weight).2 id
  | some slot =>
    obtain ⟨w, hw⟩ : ∃ w, e.deque.weightOf? node = some w := by simp [Deque.weightOf?, hs]
    cases kind with
    | read =>
      cases held with
      | none => exact same rfl
      | some held => exact ((h.moveToBack hs).2 id).trans (same rfl)
    | add => cases held <;> exact same (by simp [EventKind.relink, hw])
    | update =>
      cases held with
      | none => exact same (by simp [EventKind.relink])
      | some held =>
        obtain ⟨hd, hlink, hslot⟩ := h.setWeight hs held.weight
        rw [hw]
        cases e.touchOnUpdate with
        | false => exact hlink id
        | true => exact ((hd.moveToBack ((hslot node).trans hs)).2 id).trans (hlink id)
    | remove =>
      obtain ⟨_, d, _, hu, _, hlink⟩ := h.unlink hs
      simp only [hu]
      exact hlink id

/-- The events about a node have a say in its link, in the order in which they come. -/
theorem weightOf?_applyAll (h : e.deque.WellFormed) (events : List Event) (id : NodeId) :
    (e.applyAll events).deque.weightOf? id =
      ((events.filter (·.node = id)).map (·.kind)).foldl (EventKind.relink (e.pool.held id))
        (e.deque.weightOf? id) := by
  induction events generalizing e with
  | nil => rfl
  | cons ev events ih =>
    refine (ih (order_apply h ev).1).trans ?_
    rw [pool_apply, weightOf?_apply h]
    by_cases hid : ev.node = id
    · simp [hid]
    · simp [hid, Ne.symm hid]

/-- The events make up for every difference between nodes and deque. The listed nodes are all live
ones that are linked or that an event is about, and any others. -/
structure Suffices (nodes : List NodeId) (events : List Event) (e : Engine) : Prop where
  named : ∀ ev ∈ events, (e.pool.held ev.node).isSome → ev.node ∈ nodes
  linked : ∀ l ∈ e.deque.toList, (e.pool.held l.node).isSome → l.node ∈ nodes
  retired : ∀ ev ∈ events, ev.kind = .remove → e.pool.held ev.node = none
  adds : ∀ id ∈ nodes, (e.pool.held id).isSome → e.deque.slotOf id = none → ⟨.add, id⟩ ∈ events
  updates : ∀ l ∈ e.deque.toList, ∀ held ∈ e.pool.held l.node, held.weight ≠ l.weight →
    ⟨.update, l.node⟩ ∈ events
  removes : ∀ l ∈ e.deque.toList, e.pool.held l.node = none → ⟨.remove, l.node⟩ ∈ events

namespace Suffices

/-- What a node lacks is on its way. -/
theorem mem_of_lacking (hs : e.Suffices nodes events) (h : e.deque.WellFormed) {id : NodeId}
    (hid : (e.pool.held id).isSome → id ∈ nodes) {kind : EventKind}
    (hk : EventKind.lacking (e.pool.held id) (e.deque.weightOf? id) = some kind) :
    ⟨kind, id⟩ ∈ events := by
  cases hw : e.deque.weightOf? id with
  | none =>
    cases hh : e.pool.held id with
    | none =>
      rw [hh, hw] at hk
      cases hk
    | some held =>
      have hsome : (e.pool.held id).isSome := by simp [hh]
      rw [hh, hw] at hk
      cases hk
      exact hs.adds id (hid hsome) hsome (Deque.weightOf?_eq_none_iff.mp hw)
  | some w =>
    obtain ⟨l, hl, rfl, rfl⟩ := h.weightOf?_eq_some_iff.mp hw
    cases hh : e.pool.held l.node with
    | none =>
      rw [hh, hw] at hk
      cases hk
      exact hs.removes l hl hh
    | some held =>
      rw [hh, hw, EventKind.lacking] at hk
      split at hk
      · cases hk
      · rename_i hne
        cases hk
        exact hs.updates l hl held hh hne

/-- A live node that is not listed is not linked, and no event is about it. -/
theorem unconcerned (hs : e.Suffices nodes events) (h : e.deque.WellFormed) {id : NodeId}
    (hlive : (e.pool.held id).isSome) (hid : id ∉ nodes) :
    e.deque.weightOf? id = none ∧ events.filter (·.node = id) = [] := by
  constructor
  · cases hw : e.deque.weightOf? id with
    | none => rfl
    | some w =>
      obtain ⟨l, hl, rfl, _⟩ := h.weightOf?_eq_some_iff.mp hw
      exact absurd (hs.linked l hl hlive) hid
  · refine List.filter_eq_nil_iff.mpr fun ev hev he => hid ?_
    have hnode : ev.node = id := of_decide_eq_true he
    exact hnode ▸ hs.named ev hev (hnode ▸ hlive)

theorem perm (hs : e.Suffices nodes events) (ho : order.Perm events) : e.Suffices nodes order where
  named ev hev := hs.named ev (ho.mem_iff.mp hev)
  linked := hs.linked
  retired ev hev := hs.retired ev (ho.mem_iff.mp hev)
  adds id hid hh hn := ho.mem_iff.mpr (hs.adds id hid hh hn)
  updates l hl held hh hne := ho.mem_iff.mpr (hs.updates l hl held hh hne)
  removes l hl hh := ho.mem_iff.mpr (hs.removes l hl hh)

/-- Afterwards exactly the live nodes among the listed ones are linked, with their weights. -/
theorem weightOf?_eq (hs : e.Suffices nodes events) (h : e.deque.WellFormed) (id : NodeId) :
    (e.applyAll events).deque.weightOf? id =
      if id ∈ nodes then (e.pool.held id).map (·.weight) else none := by
  have hmem (kind : EventKind) :
      kind ∈ (events.filter (·.node = id)).map (·.kind) ↔ ⟨kind, id⟩ ∈ events := by
    simp only [List.mem_map, List.mem_filter, decide_eq_true_eq]
    exact ⟨fun ⟨ev, ⟨hev, hid⟩, hk⟩ => hid ▸ hk ▸ hev, fun hev => ⟨_, ⟨hev, rfl⟩, rfl⟩⟩
  have settled (hid : (e.pool.held id).isSome → id ∈ nodes) :
      (e.applyAll events).deque.weightOf? id = (e.pool.held id).map (·.weight) := by
    rw [weightOf?_applyAll h]
    exact EventKind.foldl_relink (fun hr => hs.retired _ ((hmem _).mp hr) rfl)
      fun kind hk => (hmem kind).mpr (hs.mem_of_lacking h hid hk)
  split
  · rename_i hid
    exact settled fun _ => hid
  · rename_i hid
    cases hh : e.pool.held id with
    | none => simpa [hh] using settled (by simp [hh])
    | some held =>
      obtain ⟨hw, hevents⟩ := hs.unconcerned h (by simp [hh]) hid
      rw [weightOf?_applyAll h, hevents]
      exact hw

end Suffices

end Engine

def Deque.shares (d : Deque) : List (NodeId × Weight) := d.toList.map fun l => (l.node, l.weight)

def Pool.shares (p : Pool) (nodes : List NodeId) : List (NodeId × Weight) :=
  nodes.filterMap fun id => (p.held id).map fun held => (id, held.weight)

theorem Deque.WellFormed.mem_shares_iff {d : Deque} (h : d.WellFormed) {id : NodeId} {w : Weight} :
    (id, w) ∈ d.shares ↔ d.weightOf? id = some w := by
  rw [h.weightOf?_eq_some_iff, Deque.shares, List.mem_map]
  simp only [Prod.mk.injEq]

theorem Deque.WellFormed.nodup_shares {d : Deque} (h : d.WellFormed) : d.shares.Nodup := by
  have hnodes : (d.shares.map (·.1)).Nodup := by
    rw [Deque.shares, List.map_map]
    exact Deque.Ring.nodup_nodes h
  exact List.Nodup.of_map _ hnodes

theorem Pool.mem_shares_iff {p : Pool} {nodes : List NodeId} {id : NodeId} {w : Weight} :
    (id, w) ∈ p.shares nodes ↔ id ∈ nodes ∧ (p.held id).map (·.weight) = some w := by
  simp only [Pool.shares, List.mem_filterMap, Option.map_eq_some_iff, Prod.mk.injEq]
  constructor
  · rintro ⟨other, hm, held, hh, rfl, rfl⟩
    exact ⟨hm, held, hh, rfl⟩
  · rintro ⟨hm, held, hh, rfl⟩
    exact ⟨id, hm, held, hh, rfl, rfl⟩

theorem Pool.nodup_shares {p : Pool} {nodes : List NodeId} (h : nodes.Nodup) :
    (p.shares nodes).Nodup := by
  refine h.filterMap fun id other share hid hother => ?_
  obtain ⟨_, _, rfl⟩ := Option.map_eq_some_iff.mp hid
  obtain ⟨_, _, he⟩ := Option.map_eq_some_iff.mp hother
  exact (congrArg Prod.fst he).symm

theorem Deque.WellFormed.weightedSize_eq {d : Deque} (h : d.WellFormed) :
    d.weightedSize = (d.shares.map (·.2.toNat)).sum := by
  rw [Deque.Ring.weightedSize h, Deque.shares, List.map_map]
  rfl

namespace Engine

variable {e : Engine} {events : List Event} {nodes : List NodeId}

theorem Suffices.perm_shares (hs : e.Suffices nodes events) (h : e.deque.WellFormed)
    (hn : nodes.Nodup) : (e.applyAll events).deque.shares.Perm (e.pool.shares nodes) := by
  have hwf := (order_applyAll h events).1
  refine (List.perm_ext_iff_of_nodup hwf.nodup_shares (Pool.nodup_shares hn)).mpr fun ⟨id, w⟩ => ?_
  rw [hwf.mem_shares_iff, Pool.mem_shares_iff, hs.weightOf?_eq h]
  by_cases hid : id ∈ nodes <;> simp [hid]

/-- Events that suffice may be replayed in any order: exactly the live nodes end up linked, each
once and with its current weight, and the total is the sum of these weights. -/
theorem replay_in_any_order (h : e.deque.WellFormed) (hn : nodes.Nodup)
    (hs : e.Suffices nodes events) :
    (∀ order, order.Perm events →
      (e.applyAll order).deque.WellFormed ∧
        (e.applyAll order).deque.shares.Perm (e.pool.shares nodes) ∧
        (e.applyAll order).deque.weightedSize = ((e.pool.shares nodes).map (·.2.toNat)).sum) ∧
    ∀ order other, order.Perm events → other.Perm events →
      (e.applyAll order).deque.shares.Perm (e.applyAll other).deque.shares ∧
        (e.applyAll order).deque.weightedSize = (e.applyAll other).deque.weightedSize := by
  have settled (order : List Event) (ho : order.Perm events) :
      (e.applyAll order).deque.WellFormed ∧
        (e.applyAll order).deque.shares.Perm (e.pool.shares nodes) ∧
        (e.applyAll order).deque.weightedSize = ((e.pool.shares nodes).map (·.2.toNat)).sum := by
    have hwf := (order_applyAll h order).1
    have hperm := (hs.perm ho).perm_shares h hn
    exact ⟨hwf, hperm, hwf.weightedSize_eq.trans (hperm.map _).sum_nat⟩
  refine ⟨settled, fun order other ho hother => ?_⟩
  obtain ⟨-, hperm, hsize⟩ := settled order ho
  obtain ⟨-, hperm', hsize'⟩ := settled other hother
  exact ⟨hperm.trans hperm'.symm, hsize.trans hsize'.symm⟩

/-- An engine whose deque is behind: one link has an old weight, one belongs to a retired node, and
a live node has none. -/
def behind : Engine where
  pool :=
    { nodes := #[⟨"a", some ⟨"1", 5⟩, 1⟩, ⟨"b", none, 1⟩, ⟨"c", some ⟨"2", 4⟩, 0⟩,
        ⟨"d", some ⟨"3", 7⟩, 0⟩, ⟨"e", none, 1⟩] }
  buffers := Buffers.ofLevel 1 1
  deque := (((Deque.pushBack {} 0 3).2.pushBack 1 2).2.pushBack 2 4).2

def arrears : List Event :=
  [⟨.update, 3⟩, ⟨.read, 3⟩, ⟨.remove, 1⟩, ⟨.add, 3⟩, ⟨.add, 1⟩, ⟨.add, 3⟩, ⟨.read, 0⟩, ⟨.update, 0⟩,
    ⟨.add, 4⟩, ⟨.update, 4⟩, ⟨.remove, 4⟩, ⟨.add, 2⟩]

theorem replay_in_any_order_behind :
    (behind.applyAll arrears).deque.order = [2, 3, 0] ∧
      (behind.applyAll arrears.reverse).deque.order = [2, 0, 3] ∧
      ∀ order, order.Perm arrears →
        (behind.applyAll order).deque.shares.Perm [(0, 5), (2, 4), (3, 7)] ∧
          (behind.applyAll order).deque.weightedSize = 16 := by
  have hwf : behind.deque.WellFormed :=
    (((Deque.wellFormed_empty.pushBack rfl 3).1.pushBack rfl 2).1.pushBack rfl 4).1
  have hs : behind.Suffices [0, 2, 3] arrears :=
    ⟨by decide +kernel, by decide +kernel, by decide +kernel, by decide +kernel,
      by decide +kernel, by decide +kernel⟩
  refine ⟨by cbv, by cbv, fun order ho => ?_⟩
  obtain ⟨-, hshares, hsize⟩ := (replay_in_any_order hwf (by decide) hs).1 order ho
  exact ⟨hshares, hsize⟩

end Engine

end BoundedCache
