import Mathlib.Algebra.Ring.Nat
import BoundedCache.Deque

namespace BoundedCache.Deque

variable {d d' : Deque} {a b e s t n : Slot} {xs ys : List Slot}

/-- From `a` through the slots in between to `e`, each link agreeing with its neighbours. -/
inductive Path (d : Deque) : Slot → List Slot → Slot → Prop where
  | last (a e : Slot) (next : d.next a = e) (prev : d.prev e = a) : Path d a [] e
  | cons (a b e : Slot) (xs : List Slot) (next : d.next a = b) (prev : d.prev b = a)
      (tail : Path d b xs e) : Path d a (b :: xs) e

theorem Path.append (hx : Path d a xs b) (hy : Path d b ys e) : Path d a (xs ++ b :: ys) e := by
  induction hx with
  | last a b next prev => exact .cons a b e ys next prev hy
  | cons a c b xs next prev tail ih => exact .cons a c e _ next prev (ih hy)

/-- A path through a slot is a path to it and a path from it. -/
theorem Path.split (h : Path d a (xs ++ b :: ys) e) : Path d a xs b ∧ Path d b ys e := by
  induction xs generalizing a with
  | nil =>
    cases h with
    | cons _ _ _ _ next prev tail => exact ⟨.last a b next prev, tail⟩
  | cons c xs ih =>
    cases h with
    | cons _ _ _ _ next prev tail =>
      obtain ⟨hx, hy⟩ := ih tail
      exact ⟨.cons a c b xs next prev hx, hy⟩

/-- The predecessor of the end lies on the path. -/
theorem Path.prev_mem (h : Path d a xs e) : d.prev e ∈ a :: xs := by
  induction h with
  | last a e next prev => simp [prev]
  | cons a b e xs next prev tail ih => exact List.mem_cons_of_mem a ih

/-- The successor of the start lies on the path. -/
theorem Path.next_mem (h : Path d a xs e) : d.next a ∈ xs ++ [e] := by
  cases h with
  | last _ _ next prev => simp [next]
  | cons _ b _ xs next prev tail => simp [next]

theorem Path.next_prev (h : Path d a xs e) : d.next (d.prev e) = e := by
  induction h with
  | last a e next prev => rw [prev, next]
  | cons a b e xs next prev tail ih => exact ih

theorem Path.prev_next (h : Path d a xs e) : d.prev (d.next a) = a := by
  cases h with
  | last _ _ next prev => rw [next, prev]
  | cons _ _ _ _ next prev tail => rw [next, prev]

theorem Path.congr (h : Path d a xs e) (hn : ∀ t ∈ a :: xs, d'.next t = d.next t)
    (hp : ∀ t ∈ xs ++ [e], d'.prev t = d.prev t) : Path d' a xs e := by
  induction h with
  | last a e next prev =>
    exact .last a e ((hn a (by simp)).trans next) ((hp e (by simp)).trans prev)
  | cons a b e xs next prev tail ih =>
    refine .cons a b e xs ((hn a (by simp)).trans next) ((hp b (by simp)).trans prev) ?_
    exact ih (fun t ht => hn t (List.mem_cons_of_mem a ht))
      (fun t ht => hp t (List.mem_cons_of_mem b ht))

/-- Writing the last link anew makes the path end elsewhere. -/
theorem Path.redirect (h : Path d a xs e) (nodup : (a :: xs).Nodup)
    (hlast : d'.next (d.prev e) = n) (hback : d'.prev n = d.prev e)
    (hn : ∀ t ∈ a :: xs, t ≠ d.prev e → d'.next t = d.next t)
    (hp : ∀ t ∈ xs, d'.prev t = d.prev t) : Path d' a xs n := by
  induction h with
  | last a e next prev =>
    rw [prev] at hlast hback
    exact .last a n hlast hback
  | cons a b e xs next prev tail ih =>
    obtain ⟨ha, hx⟩ := List.nodup_cons.mp nodup
    have hne : a ≠ d.prev e := fun he => ha (he ▸ tail.prev_mem)
    refine .cons a b n xs ((hn a (by simp) hne).trans next) ((hp b (by simp)).trans prev) ?_
    exact ih hx hlast hback (fun t ht => hn t (List.mem_cons_of_mem a ht))
      (fun t ht => hp t (List.mem_cons_of_mem b ht))

/-- A walk that has enough steps shows the whole path. -/
theorem Path.walkFrom_eq {xs : List Linked} (h : Path d a (xs.map (·.slot)) 0) {n : Nat}
    (hn : xs.length ≤ n) (h0 : 0 ∉ xs.map (·.slot))
    (holds : ∀ l ∈ xs, (d.link l.slot).node = some l.node ∧ (d.link l.slot).weight = l.weight) :
    d.walkFrom n (d.next a) = xs := by
  induction xs generalizing n a with
  | nil =>
    cases h with
    | last _ _ next prev => rw [next, walkFrom_zero]
  | cons l xs ih =>
    rw [List.map_cons, List.mem_cons, not_or] at h0
    obtain ⟨⟨hnode, hweight⟩, hrest⟩ := List.forall_mem_cons.mp holds
    cases n with
    | zero => simp at hn
    | succ n =>
      cases h with
      | cons _ _ _ _ next prev tail =>
        have hwalk : d.walkFrom n (d.next l.slot) = xs := ih tail (by simpa using hn) h0.2 hrest
        simp [walkFrom, next, Ne.symm h0.1, hnode, hweight, hwalk]

theorem next_setNext (h : d.InArena s) (t : Slot) :
    (d.setNext s n).next t = if t = s then n else d.next t := by
  rw [next, setNext, link_modify d s t _ h]
  split <;> rfl

theorem prev_setPrev (h : d.InArena s) (t : Slot) :
    (d.setPrev s n).prev t = if t = s then n else d.prev t := by
  rw [prev, setPrev, link_modify d s t _ h]
  split <;> rfl

theorem link_of_modified {f : Link → Link} (hl : d'.links = (d.modify s f).links)
    (h : d.InArena s) (t : Slot) : d'.link t = if t = s then f (d.link s) else d.link t := by
  rw [← link_modify d s t f h, link, hl, link]

/-- A write to one field of a link leaves every other field of every link alone. -/
theorem link_modify_field {β : Type} (field : Link → β) {f : Link → Link}
    (hf : ∀ l, field (f l) = field l) (d : Deque) (s t : Slot) :
    field ((d.modify s f).link t) = field (d.link t) := by
  by_cases h : d.InArena s
  · rw [link_modify d s t f h]
    split
    · rename_i he
      rw [hf, he]
    · rfl
  · rw [modify_of_not_inArena h]

@[simp] theorem prev_setNext (d : Deque) (s n t : Slot) : (d.setNext s n).prev t = d.prev t :=
  link_modify_field Link.prev (by simp) d s t

@[simp] theorem next_setPrev (d : Deque) (s n t : Slot) : (d.setPrev s n).next t = d.next t :=
  link_modify_field Link.next (by simp) d s t

@[simp] theorem node_setNext (d : Deque) (s n t : Slot) :
    ((d.setNext s n).link t).node = (d.link t).node :=
  link_modify_field Link.node (by simp) d s t

@[simp] theorem node_setPrev (d : Deque) (s n t : Slot) :
    ((d.setPrev s n).link t).node = (d.link t).node :=
  link_modify_field Link.node (by simp) d s t

@[simp] theorem weight_setNext (d : Deque) (s n t : Slot) :
    ((d.setNext s n).link t).weight = (d.link t).weight :=
  link_modify_field Link.weight (by simp) d s t

@[simp] theorem weight_setPrev (d : Deque) (s n t : Slot) :
    ((d.setPrev s n).link t).weight = (d.link t).weight :=
  link_modify_field Link.weight (by simp) d s t

@[simp] theorem inArena_setNext : (d.setNext s n).InArena t ↔ d.InArena t := by
  simp [InArena, setNext]

@[simp] theorem inArena_setPrev : (d.setPrev s n).InArena t ↔ d.InArena t := by
  simp [InArena, setPrev]

@[simp] theorem size_detach (d : Deque) (s : Slot) : (d.detach s).links.size = d.links.size := by
  simp [detach, setNext, setPrev]

@[simp] theorem size_attachBack (d : Deque) (s : Slot) :
    (d.attachBack s).links.size = d.links.size := by
  simp [attachBack, setNext, setPrev]

@[simp] theorem node_detach (d : Deque) (s t : Slot) :
    ((d.detach s).link t).node = (d.link t).node := by
  simp [detach]

@[simp] theorem weight_detach (d : Deque) (s t : Slot) :
    ((d.detach s).link t).weight = (d.link t).weight := by
  simp [detach]

@[simp] theorem node_attachBack (d : Deque) (s t : Slot) :
    ((d.attachBack s).link t).node = (d.link t).node := by
  simp [attachBack]

@[simp] theorem weight_attachBack (d : Deque) (s t : Slot) :
    ((d.attachBack s).link t).weight = (d.link t).weight := by
  simp [attachBack]

@[simp] theorem free_detach (d : Deque) (s : Slot) : (d.detach s).free = d.free := rfl

@[simp] theorem free_attachBack (d : Deque) (s : Slot) : (d.attachBack s).free = d.free := by
  simp only [attachBack, setPrev, setNext, modify]

@[simp] theorem linked_detach (d : Deque) (s : Slot) : (d.detach s).linked = d.linked := rfl

@[simp] theorem linked_attachBack (d : Deque) (s : Slot) :
    (d.attachBack s).linked = d.linked := by
  simp only [attachBack, setPrev, setNext, modify]

@[simp] theorem total_detach (d : Deque) (s : Slot) : (d.detach s).total = d.total := rfl

@[simp] theorem total_attachBack (d : Deque) (s : Slot) : (d.attachBack s).total = d.total := by
  simp only [attachBack, setPrev, setNext, modify]

@[simp] theorem recorded_detach (d : Deque) (s : Slot) :
    (d.detach s).recorded = d.recorded := rfl

@[simp] theorem recorded_attachBack (d : Deque) (s : Slot) :
    (d.attachBack s).recorded = d.recorded := by
  simp only [attachBack, setPrev, setNext, modify]

theorem gauges_pushBack (d : Deque) (id : NodeId) (w : Weight) :
    (d.pushBack id w).2.linked = d.linked.add 1 ∧
      (d.pushBack id w).2.total = d.total.add w.toNat := by
  have hplace (l : Link) :
      (d.place l).2.linked = d.linked ∧ (d.place l).2.total = d.total := by
    unfold place
    split <;> exact ⟨rfl, rfl⟩
  unfold pushBack
  simp [(hplace _).1, (hplace _).2]

theorem gauges_unlink {item : NodeId × Weight} (h : d.unlink s = some (item, d')) :
    d'.linked = d.linked.sub 1 ∧ d'.total = d.total.sub (d.link s).weight.toNat := by
  obtain ⟨_, _, he⟩ := Option.map_eq_some_iff.mp h
  cases he
  exact ⟨rfl, rfl⟩

theorem gauges_moveToBack (d : Deque) (s : Slot) :
    (d.moveToBack s).linked = d.linked ∧ (d.moveToBack s).total = d.total := by
  unfold moveToBack
  split
  · exact ⟨rfl, rfl⟩
  · split <;> simp

theorem gauges_setWeight (h : d.InArena s) (w : Weight) :
    (d.setWeight s w).linked = d.linked ∧
      (d.setWeight s w).total = (d.total.sub (d.link s).weight.toNat).add w.toNat := by
  rw [setWeight, if_pos h]
  exact ⟨rfl, rfl⟩

/-- Taking a slot out of a path joins what lies before it to what lies behind it. -/
theorem Path.detach (hx : Path d a xs s) (hy : Path d s ys e)
    (arena : ∀ t ∈ a :: (xs ++ s :: ys), d.InArena t) (he : d.InArena e)
    (nodup : (a :: (xs ++ s :: ys)).Nodup) (hend : e ∉ xs ++ s :: ys) :
    Path (d.detach s) a (xs ++ ys) e := by
  have hprev : d.prev s ∈ a :: xs := hx.prev_mem
  have hnext : d.next s ∈ ys ++ [e] := hy.next_mem
  have hpa : d.InArena (d.prev s) := arena _ (by grind)
  have hna : d.InArena (d.next s) := by
    rcases List.mem_append.mp hnext with h | h
    · exact arena _ (by grind)
    · rw [List.mem_singleton.mp h]
      exact he
  have next' (t : Slot) :
      (d.detach s).next t = if t = d.prev s then d.next s else d.next t := by
    simp [Deque.detach, next_setNext hpa]
  have prev' (t : Slot) :
      (d.detach s).prev t = if t = d.next s then d.prev s else d.prev t := by
    rw [Deque.detach, prev_setPrev (inArena_setNext.mpr hna)]
    simp
  have front : Path (d.detach s) a xs (d.next s) := by
    apply hx.redirect
    · grind
    · simp [next']
    · simp [prev']
    · intro t _ ht
      simp [next', ht]
    · intro t ht
      have hne : t ≠ d.next s := by grind
      simp [prev', hne]
  cases hy with
  | last _ _ hn hp => simpa [hn] using front
  | cons _ b _ ys hn hp tail =>
    rw [hn] at front
    refine front.append (tail.congr ?_ ?_)
    · intro t ht
      have hne : t ≠ d.prev s := by grind
      simp [next', hne]
    · intro t ht
      have hne : t ≠ d.next s := by grind
      simp [prev', hne]

/-- A slot that is attached comes last. -/
theorem Path.attachBack (h : Path d 0 xs 0) (arena : ∀ t ∈ 0 :: xs, d.InArena t)
    (hs : d.InArena s) (nodup : (0 :: xs).Nodup) (hnew : s ∉ 0 :: xs) :
    Path (d.attachBack s) 0 (xs ++ [s]) 0 := by
  have htail : d.prev 0 ∈ 0 :: xs := h.prev_mem
  have hne : d.prev 0 ≠ s := fun he => hnew (he ▸ htail)
  have next' (t : Slot) :
      (d.attachBack s).next t = if t = d.prev 0 then s else if t = s then 0 else d.next t := by
    rw [Deque.attachBack, next_setPrev, next_setNext (by simpa using arena _ htail),
      next_setNext (by simpa using hs)]
    simp
  have prev' (t : Slot) :
      (d.attachBack s).prev t = if t = 0 then s else if t = s then d.prev 0 else d.prev t := by
    rw [Deque.attachBack, prev_setPrev (by simpa using arena 0 (by simp)), prev_setNext,
      prev_setNext, prev_setPrev hs]
  have hs0 : s ≠ 0 := fun h0 => hnew (by simp [h0])
  have front : Path (d.attachBack s) 0 xs s := by
    apply h.redirect nodup
    · simp [next']
    · simp [prev', hs0]
    · intro t ht htn
      have : t ≠ s := fun he => hnew (he ▸ ht)
      simp [next', htn, this]
    · intro t ht
      have h0 : t ≠ 0 := fun h0 => (List.nodup_cons.mp nodup).1 (h0 ▸ ht)
      have hts : t ≠ s := fun he => hnew (he ▸ List.mem_cons_of_mem 0 ht)
      simp [prev', h0, hts]
  refine front.append (.last s 0 ?_ ?_)
  · simp [next', Ne.symm hne]
  · simp [prev']

/-- The links of the deque hold exactly the nodes of `xs`, least recently used first. Sentinel,
linked slots and free stack share out the arena without overlap. -/
structure Wired (d : Deque) (xs : List Linked) : Prop where
  path : Path d 0 (xs.map (·.slot)) 0
  arena : (0 :: (xs.map (·.slot) ++ d.free)).Perm (List.range d.links.size)
  holds : ∀ l ∈ xs, (d.link l.slot).node = some l.node ∧ (d.link l.slot).weight = l.weight
  vacant : ∀ s ∈ 0 :: d.free, (d.link s).node = none

/-- The books agree with the links: each linked node records its slot and no other node records any,
and length and weighted size are those of the list. -/
structure Ring (d : Deque) (xs : List Linked) : Prop extends Wired d xs where
  records : ∀ l ∈ xs, d.slotOf l.node = some l.slot
  recorded : ∀ id s, d.slotOf id = some s → ∃ l ∈ xs, l.node = id ∧ l.slot = s
  length : d.length = xs.length
  weightedSize : d.weightedSize = (xs.map (·.weight.toNat)).sum

/-- What is on one side of an element is in the list. -/
theorem mem_middle_of_mem {α : Type} {x y : α} {xs ys : List α} (h : y ∈ xs ++ ys) :
    y ∈ xs ++ x :: ys :=
  List.perm_middle.mem_iff.mpr (List.mem_cons_of_mem x h)

theorem mem_of_mem_middle {α : Type} {x y : α} {xs ys : List α} (h : y ∈ xs ++ x :: ys)
    (hne : y ≠ x) : y ∈ xs ++ ys :=
  List.mem_of_ne_of_mem hne (List.perm_middle.mem_iff.mp h)

/-- A link that is put into the arena changes no slot but the one it gets. -/
theorem link_place (hfree : ∀ s ∈ d.free, d.InArena s) (new : Link) (t : Slot) :
    (d.place new).2.link t = if t = (d.place new).1 then new else d.link t := by
  unfold place
  cases hf : d.free with
  | nil =>
    simp only [link, Array.getElem?_push]
    split <;> rfl
  | cons s rest =>
    have hs : s < d.links.size := hfree s (by simp [hf])
    simp only [link, Array.getElem?_setIfInBounds]
    by_cases he : t = s
    · simp [he, hs]
    · simp [he, Ne.symm he]

namespace Wired

variable {xs ys : List Linked} {l m : Linked} {id : NodeId} {w : Weight}

theorem nodup (h : Wired d xs) : (0 :: (xs.map (·.slot) ++ d.free)).Nodup :=
  h.arena.nodup_iff.mpr List.nodup_range

theorem nodup_slots (h : Wired d xs) : (0 :: xs.map (·.slot)).Nodup :=
  h.nodup.sublist ((List.sublist_append_left _ d.free).cons_cons 0)

theorem inArena_iff (h : Wired d xs) (s : Slot) :
    d.InArena s ↔ s = 0 ∨ s ∈ xs.map (·.slot) ∨ s ∈ d.free := by
  have := h.arena.mem_iff (a := s)
  simp only [List.mem_cons, List.mem_append, List.mem_range] at this
  exact this.symm

theorem inArena_of_mem (h : Wired d xs) (hs : s ∈ 0 :: xs.map (·.slot)) : d.InArena s := by
  rw [h.inArena_iff]
  rcases List.mem_cons.mp hs with h0 | hm
  · exact Or.inl h0
  · exact Or.inr (Or.inl hm)

/-- A linked slot is neither the sentinel nor the slot of another node. -/
theorem nodup_middle (h : Wired d (xs ++ l :: ys)) :
    (l.slot :: 0 :: (xs ++ ys).map (·.slot)).Nodup := by
  have hmiddle : ((xs ++ l :: ys).map (·.slot)).Perm ((l :: (xs ++ ys)).map (·.slot)) :=
    List.perm_middle.map _
  have hswap := (hmiddle.cons 0).trans (List.Perm.swap l.slot 0 _)
  exact hswap.nodup_iff.mp h.nodup_slots

theorem slot_not_mem (h : Wired d (xs ++ l :: ys)) : l.slot ∉ 0 :: (xs ++ ys).map (·.slot) :=
  (List.nodup_cons.mp h.nodup_middle).1

theorem slot_ne_zero (h : Wired d (xs ++ l :: ys)) : l.slot ≠ 0 := by
  intro h0
  exact h.slot_not_mem (h0 ▸ List.mem_cons_self)

theorem slot_ne (h : Wired d (xs ++ l :: ys)) (hm : m ∈ xs ++ ys) : m.slot ≠ l.slot := by
  intro he
  exact h.slot_not_mem (he ▸ List.mem_cons_of_mem 0 (List.mem_map_of_mem hm))

/-- Only links and free stack matter. -/
theorem of_links (h : Wired d xs) (hl : d'.links = d.links) (hf : d'.free = d.free) :
    Wired d' xs := by
  have link' (t : Slot) : d'.link t = d.link t := by simp [link, hl]
  constructor
  · exact h.path.congr (fun t _ => by simp [next, link']) (fun t _ => by simp [prev, link'])
  · simpa [hl, hf] using h.arena
  · simpa [link'] using h.holds
  · simpa [link', hf] using h.vacant

/-- A slot that no node is linked at holds none. -/
theorem node_eq_none (h : Wired d xs) (hs : s ∉ xs.map (·.slot)) : (d.link s).node = none := by
  by_cases ha : d.InArena s
  · apply h.vacant
    rcases (h.inArena_iff s).mp ha with h0 | hx | hf
    · simp [h0]
    · exact absurd hx hs
    · exact List.mem_cons_of_mem 0 hf
  · have : d.links[s]? = none := Array.getElem?_eq_none (Nat.le_of_not_lt ha)
    simp [link, this]

/-- A new link takes a slot of the free stack, or the next slot beyond the arena. -/
theorem arena_place (h : Wired d xs) (new : Link) :
    (0 :: (xs.map (·.slot) ++ (d.place new).1 :: (d.place new).2.free)).Perm
      (List.range (d.place new).2.links.size) := by
  have harena := h.arena
  unfold place
  cases hf : d.free with
  | nil =>
    rw [hf, List.append_nil] at harena
    simp only [Array.size_push, List.range_succ]
    exact List.Perm.append_right [d.links.size] harena
  | cons s rest => simpa [hf] using harena

/-- A link placed and attached comes last. -/
theorem attachBack_place (h : Wired d xs) (new : Link) (hn : new.node = some id)
    (hw : new.weight = w) :
    Wired ((d.place new).2.attachBack (d.place new).1) (xs ++ [⟨(d.place new).1, id, w⟩]) := by
  have harena := h.arena_place new
  have hlink := link_place (fun s hs => (h.inArena_iff s).mpr (.inr (.inr hs))) new
  have hsub : ∀ s ∈ (d.place new).2.free, s ∈ d.free := by
    unfold place
    split <;> simp_all
  generalize d.place new = p at *
  obtain ⟨slot, d1⟩ := p
  have hnodup := harena.nodup_iff.mpr List.nodup_range
  have hnew : slot ∉ 0 :: xs.map (·.slot) := by grind
  have hin (s : Slot) (hs : s ∈ 0 :: (xs.map (·.slot) ++ slot :: d1.free)) : d1.InArena s :=
    List.mem_range.mp (harena.mem_iff.mp hs)
  have same (t : Slot) (ht : t ∈ 0 :: xs.map (·.slot)) : d1.link t = d.link t := by
    have hne : t ≠ slot := fun he => hnew (he ▸ ht)
    simp [hlink, hne]
  have path1 : Path d1 0 (xs.map (·.slot)) 0 := by
    apply h.path.congr
    · intro t ht
      simp [next, same t ht]
    · intro t ht
      simp [prev, same t (by grind)]
  constructor
  · have := path1.attachBack (fun t ht => hin t (by grind)) (hin slot (by simp)) h.nodup_slots hnew
    simpa using this
  · rw [size_attachBack]
    simpa using harena
  · intro l hl
    rw [node_attachBack, weight_attachBack]
    rcases List.mem_append.mp hl with hl | hl
    · rw [same _ (List.mem_cons_of_mem 0 (List.mem_map_of_mem hl))]
      exact h.holds l hl
    · rw [List.mem_singleton.mp hl]
      simp [hlink, hn, hw]
  · intro s hs
    rw [free_attachBack] at hs
    have hne : s ≠ slot := by grind
    rw [node_attachBack, hlink, if_neg hne]
    exact h.vacant s (by grind)

/-- The slots on both sides of a linked slot, without it. -/
theorem path_detach (h : Wired d (xs ++ l :: ys)) :
    Path (d.detach l.slot) 0 ((xs ++ ys).map (·.slot)) 0 := by
  have hpath := h.path
  have hnodup := h.nodup_slots
  have harena := fun t ht => h.inArena_of_mem (s := t) ht
  rw [List.map_append, List.map_cons] at hpath hnodup harena
  rw [List.map_append]
  obtain ⟨hx, hy⟩ := hpath.split
  exact hx.detach hy harena (harena 0 (by simp)) hnodup (List.nodup_cons.mp hnodup).1

/-- The slot of a linked node is emptied and goes on the free stack. -/
theorem vacate (h : Wired d (xs ++ l :: ys))
    (hl : d'.links = ((d.detach l.slot).modify l.slot ({ · with node := none, weight := 0 })).links)
    (hf : d'.free = l.slot :: d.free) : Wired d' (xs ++ ys) := by
  have hin : (d.detach l.slot).InArena l.slot := by
    rw [InArena, size_detach]
    exact h.inArena_of_mem (by simp)
  have hlink (t : Slot) : d'.link t =
      if t = l.slot then { (d.detach l.slot).link l.slot with node := none, weight := 0 }
      else (d.detach l.slot).link t := by
    simpa using link_of_modified hl hin t
  have field {β : Type} (field : Link → β) (hfield : ∀ k : Link,
      field { k with node := none, weight := 0 } = field k) (t : Slot) :
      field (d'.link t) = field ((d.detach l.slot).link t) := by
    rw [hlink]
    split
    · rename_i he
      rw [hfield, he]
    · rfl
  constructor
  · apply h.path_detach.congr
    · intro t _
      exact field Link.next (by simp) t
    · intro t _
      exact field Link.prev (by simp) t
  · have := h.arena
    rw [hl, hf, size_modify, size_detach]
    refine (List.Perm.cons 0 ?_).trans this
    have hmiddle : ((xs ++ l :: ys).map (·.slot)).Perm ((l :: (xs ++ ys)).map (·.slot)) :=
      List.perm_middle.map _
    exact List.perm_middle.trans (hmiddle.symm.append_right d.free)
  · intro m hm
    rw [hlink, if_neg (h.slot_ne hm), node_detach, weight_detach]
    exact h.holds m (mem_middle_of_mem hm)
  · intro s hs
    rw [hlink]
    split
    · rfl
    · rename_i hne
      rw [node_detach]
      rw [hf] at hs
      exact h.vacant s (mem_of_mem_middle (show s ∈ [0] ++ l.slot :: d.free from hs) hne)

/-- Only the last slot precedes the sentinel. -/
theorem eq_nil_of_prev (h : Wired d (xs ++ l :: ys)) (hp : d.prev 0 = l.slot) : ys = [] := by
  have hpath := h.path
  have hnodup := h.nodup_slots
  rw [List.map_append, List.map_cons] at hpath hnodup
  cases ys with
  | nil => rfl
  | cons m ys =>
    cases hpath.split.2 with
    | cons _ _ _ _ next prev tail =>
      have := tail.prev_mem
      grind

/-- A linked node that is moved comes last. -/
theorem moveToBack (h : Wired d (xs ++ l :: ys)) :
    Wired (d.moveToBack l.slot) (xs ++ ys ++ [l]) := by
  have hperm : (xs ++ ys ++ [l]).Perm (xs ++ l :: ys) :=
    (List.perm_append_singleton l (xs ++ ys)).trans List.perm_middle.symm
  unfold Deque.moveToBack
  split
  · rename_i hp
    have hy := h.eq_nil_of_prev hp
    simpa [hy] using h
  · have hin : d.InArena l.slot := h.inArena_of_mem (by simp)
    rw [if_pos hin]
    constructor
    · have harena (t : Slot) (ht : t ∈ 0 :: (xs ++ ys).map (·.slot)) :
          (d.detach l.slot).InArena t := by
        rw [InArena, size_detach]
        apply h.inArena_of_mem
        rcases List.mem_cons.mp ht with h0 | ht
        · exact h0 ▸ List.mem_cons_self
        · obtain ⟨m, hm, rfl⟩ := List.mem_map.mp ht
          exact List.mem_cons_of_mem 0 (List.mem_map_of_mem (mem_middle_of_mem hm))
      have hslot : (d.detach l.slot).InArena l.slot := by
        rw [InArena, size_detach]
        exact hin
      obtain ⟨hnew, hothers⟩ := List.nodup_cons.mp h.nodup_middle
      have := h.path_detach.attachBack harena hslot hothers hnew
      simpa using this
    · have := h.arena
      rw [size_attachBack, size_detach, free_attachBack, free_detach]
      exact (List.Perm.cons 0 ((hperm.map (·.slot)).append_right d.free)).trans this
    · intro m hm
      rw [node_attachBack, weight_attachBack, node_detach, weight_detach]
      exact h.holds m (hperm.mem_iff.mp hm)
    · intro s hs
      rw [free_attachBack, free_detach] at hs
      rw [node_attachBack, node_detach]
      exact h.vacant s hs

/-- Only the weight in the link of the node changes. -/
theorem setWeight (h : Wired d (xs ++ l :: ys))
    (hl : d'.links = (d.modify l.slot ({ · with weight := w })).links) (hf : d'.free = d.free) :
    Wired d' (xs ++ { l with weight := w } :: ys) := by
  have hin : d.InArena l.slot := h.inArena_of_mem (by simp)
  have hlink (t : Slot) : d'.link t =
      if t = l.slot then { d.link l.slot with weight := w } else d.link t := by
    simpa using link_of_modified hl hin t
  have hnode (t : Slot) : (d'.link t).node = (d.link t).node := by
    rw [hlink]
    split
    · rename_i he
      rw [he]
    · rfl
  constructor
  · have hpath := h.path
    rw [List.map_append, List.map_cons] at hpath ⊢
    apply hpath.congr
    · intro t _
      simp only [next, hlink]
      split <;> simp_all
    · intro t _
      simp only [prev, hlink]
      split <;> simp_all
  · simpa [hl, hf] using h.arena
  · intro m hm
    rw [hnode]
    rcases List.mem_append.mp hm with hm | hm
    · rw [hlink, if_neg (h.slot_ne (List.mem_append_left ys hm))]
      exact h.holds m (List.mem_append_left (l :: ys) hm)
    · rcases List.mem_cons.mp hm with rfl | hm
      · exact ⟨(h.holds l (by simp)).1, by simp [hlink]⟩
      · have hother := List.mem_append_right xs hm
        rw [hlink, if_neg (h.slot_ne hother)]
        exact h.holds m (mem_middle_of_mem hother)
  · intro s hs
    rw [hnode]
    exact h.vacant s (by rwa [hf] at hs)

end Wired

namespace Ring

variable {xs ys : List Linked} {l : Linked} {id : NodeId} {w : Weight}

theorem empty : Ring {} [] where
  path := .last 0 0 rfl rfl
  arena := by simp [List.range_succ]
  holds := by simp
  vacant := by simp [link]
  records := by simp
  recorded := by simp [slotOf]
  length := rfl
  weightedSize := rfl

theorem nodup_nodes (h : Ring d xs) : (xs.map (·.node)).Nodup := by
  have hs := (List.nodup_cons.mp h.nodup_slots).2
  rw [List.Nodup, List.pairwise_map] at hs ⊢
  refine hs.imp_of_mem fun hl hm hne he => hne ?_
  exact Option.some.inj ((h.records _ hl).symm.trans ((congrArg d.slotOf he).trans (h.records _ hm)))

theorem node_not_mem (h : Ring d (xs ++ l :: ys)) : l.node ∉ (xs ++ ys).map (·.node) := by
  have hmiddle : ((xs ++ l :: ys).map (·.node)).Perm ((l :: (xs ++ ys)).map (·.node)) :=
    List.perm_middle.map _
  exact (List.nodup_cons.mp (hmiddle.nodup_iff.mp h.nodup_nodes)).1

/-- A node records no slot just in case it is not linked. -/
theorem slotOf_eq_none_iff (h : Ring d xs) : d.slotOf id = none ↔ id ∉ xs.map (·.node) := by
  constructor
  · intro hn hm
    obtain ⟨l, hl, rfl⟩ := List.mem_map.mp hm
    exact absurd ((h.records l hl).symm.trans hn) (by simp)
  · intro hm
    cases hs : d.slotOf id with
    | none => rfl
    | some s =>
      obtain ⟨l, hl, he, _⟩ := h.recorded id s hs
      exact absurd (List.mem_map.mpr ⟨l, hl, he⟩) hm

/-- A recorded slot picks its node out of the list. -/
theorem exists_of_slotOf (h : Ring d xs) (hs : d.slotOf id = some s) :
    ∃ front l back, xs = front ++ l :: back ∧ l.node = id ∧ l.slot = s := by
  obtain ⟨l, hl, he⟩ := h.recorded id s hs
  obtain ⟨front, back, rfl⟩ := List.append_of_mem hl
  exact ⟨front, l, back, rfl, he⟩

/-- A node that is linked comes last. -/
theorem pushBack (h : Ring d xs) (hid : d.slotOf id = none) :
    Ring (d.pushBack id w).2 (xs ++ [⟨(d.pushBack id w).1, id, w⟩]) := by
  have hplace := h.toWired.attachBack_place { node := some id, weight := w } rfl rfl
  obtain ⟨hlinked, htotal⟩ := d.gauges_pushBack id w
  have hlen : (d.pushBack id w).2.length = d.length + 1 := congrArg Gauge.value hlinked
  have hsize : (d.pushBack id w).2.weightedSize = d.weightedSize + w.toNat :=
    congrArg Gauge.value htotal
  have hrec : (d.pushBack id w).2.recorded = Assoc.put id (d.pushBack id w).1 d.recorded := by
    have hsame (new : Link) : (d.place new).2.recorded = d.recorded := by
      unfold place
      split <;> rfl
    unfold Deque.pushBack
    simp [hsame]
  have hslot (other : NodeId) : (d.pushBack id w).2.slotOf other =
      if other = id then some (d.pushBack id w).1 else d.slotOf other := by
    rw [slotOf, hrec, Assoc.lookup_put, slotOf]
  have hunlinked := h.slotOf_eq_none_iff.mp hid
  refine { toWired := hplace.of_links rfl rfl, records := ?_, recorded := ?_, length := ?_,
           weightedSize := ?_ }
  · intro l hl
    rcases List.mem_append.mp hl with hl | hl
    · have hne : l.node ≠ id := fun he => hunlinked (he ▸ List.mem_map_of_mem hl)
      rw [hslot, if_neg hne, h.records l hl]
    · rw [List.mem_singleton.mp hl, hslot, if_pos rfl]
  · intro other s hs
    rw [hslot] at hs
    split at hs
    · rename_i he
      exact ⟨⟨_, id, w⟩, by simp, he.symm, Option.some.inj hs⟩
    · obtain ⟨l, hl, he⟩ := h.recorded other s hs
      exact ⟨l, List.mem_append_left _ hl, he⟩
  · simp [hlen, h.length]
  · simp [hsize, h.weightedSize]

/-- A linked node is taken out with its weight, and the others stay in order. -/
theorem unlink (h : Ring d (xs ++ l :: ys)) :
    ∃ d', d.unlink l.slot = some ((l.node, l.weight), d') ∧ Ring d' (xs ++ ys) := by
  obtain ⟨hnode, hweight⟩ := h.holds l (by simp)
  have hunique := h.node_not_mem
  simp only [Deque.unlink, hnode, hweight, Option.map_some]
  refine ⟨_, rfl, { toWired := h.toWired.vacate rfl rfl, records := ?_, recorded := ?_, length := ?_,
                    weightedSize := ?_ }⟩
  · intro m hm
    have hne : m.node ≠ l.node := fun he => hunique (he ▸ List.mem_map_of_mem hm)
    refine (Assoc.lookup_drop _ _ _).trans ?_
    rw [if_neg hne]
    exact h.records m (mem_middle_of_mem hm)
  · intro other s hs
    have hs := (Assoc.lookup_drop _ _ _).symm.trans hs
    split at hs
    · cases hs
    · rename_i hne
      obtain ⟨m, hm, he⟩ := h.recorded other s hs
      have hml : m ≠ l := fun heq => hne (heq ▸ he.1).symm
      exact ⟨m, mem_of_mem_middle hm hml, he⟩
  · show d.length - 1 = _
    simp [h.length]
  · show d.weightedSize - l.weight.toNat = _
    simp [h.weightedSize]
    omega

/-- A slot that no node is linked at yields no node. -/
theorem unlink_eq_none (h : Ring d xs) (hs : s ∉ xs.map (·.slot)) : d.unlink s = none := by
  simp [Deque.unlink, h.node_eq_none hs]

/-- A linked node that is moved comes last. -/
theorem moveToBack (h : Ring d (xs ++ l :: ys)) :
    Ring (d.moveToBack l.slot) (xs ++ ys ++ [l]) := by
  have hperm : (xs ++ ys ++ [l]).Perm (xs ++ l :: ys) :=
    (List.perm_append_singleton l (xs ++ ys)).trans List.perm_middle.symm
  obtain ⟨hlinked, htotal⟩ := d.gauges_moveToBack l.slot
  have hlen : (d.moveToBack l.slot).length = d.length := congrArg Gauge.value hlinked
  have hsize : (d.moveToBack l.slot).weightedSize = d.weightedSize := congrArg Gauge.value htotal
  have hrec : (d.moveToBack l.slot).recorded = d.recorded := by
    unfold Deque.moveToBack
    split
    · rfl
    · split <;> simp
  have hslot (other : NodeId) : (d.moveToBack l.slot).slotOf other = d.slotOf other := by
    rw [slotOf, slotOf, hrec]
  refine { toWired := h.toWired.moveToBack, records := ?_, recorded := ?_, length := ?_,
           weightedSize := ?_ }
  · intro m hm
    rw [hslot]
    exact h.records m (hperm.mem_iff.mp hm)
  · intro other s hs
    rw [hslot] at hs
    obtain ⟨m, hm, he⟩ := h.recorded other s hs
    exact ⟨m, hperm.mem_iff.mpr hm, he⟩
  · rw [hlen, h.length, hperm.length_eq]
  · rw [hsize, h.weightedSize, (hperm.map _).sum_nat]

/-- A linked node keeps its place with another weight. -/
theorem setWeight (h : Ring d (xs ++ l :: ys)) :
    Ring (d.setWeight l.slot w) (xs ++ { l with weight := w } :: ys) := by
  have hin : d.InArena l.slot := h.inArena_of_mem (by simp)
  have hweight := (h.holds l (by simp)).2
  rw [Deque.setWeight, if_pos hin]
  refine { toWired := h.toWired.setWeight rfl rfl, records := ?_, recorded := ?_, length := ?_,
           weightedSize := ?_ }
  · intro m hm
    rcases List.mem_append.mp hm with hm | hm
    · exact h.records m (by simp [hm])
    · rcases List.mem_cons.mp hm with rfl | hm
      · exact h.records l (by simp)
      · exact h.records m (by simp [hm])
  · intro other s hs
    obtain ⟨m, hm, he⟩ := h.recorded other s hs
    rcases List.mem_append.mp hm with hm | hm
    · exact ⟨m, by simp [hm], he⟩
    · rcases List.mem_cons.mp hm with rfl | hm
      · exact ⟨{ m with weight := w }, by simp, he⟩
      · exact ⟨m, by simp [hm], he⟩
  · show d.length = _
    simp [h.length]
  · show d.weightedSize - (d.link l.slot).weight.toNat + w.toNat = _
    simp [hweight, h.weightedSize]
    omega

theorem length_lt_size (h : Ring d xs) : xs.length < d.links.size := by
  have := h.arena.length_eq
  simp at this
  omega

/-- The list that the deque holds is the one that it shows. -/
theorem toList_eq (h : Ring d xs) : d.toList = xs :=
  h.path.walkFrom_eq (Nat.le_of_lt h.length_lt_size) (List.nodup_cons.mp h.nodup_slots).1 h.holds

theorem head?_nil (h : Ring d []) : d.head? = none := by
  cases h.path with
  | last _ _ next prev => simp [head?, next]

theorem head?_cons (h : Ring d (l :: xs)) : d.head? = some l.slot := by
  have h0 : l.slot ≠ 0 := Wired.slot_ne_zero (show Wired d ([] ++ l :: xs) from h.toWired)
  cases h.path with
  | cons _ _ _ _ next prev tail => simp [head?, next, h0]

theorem popFront?_nil (h : Ring d []) : d.popFront? = none := by
  simp [popFront?, h.head?_nil]

/-- The first node is the one that is taken out. -/
theorem popFront?_cons (h : Ring d (l :: xs)) :
    ∃ d', d.popFront? = some (l.node, d') ∧ Ring d' xs := by
  have hfirst : Ring d ([] ++ l :: xs) := h
  obtain ⟨d', hd, hr⟩ := hfirst.unlink
  exact ⟨d', by simp [popFront?, h.head?_cons, hd], hr⟩

/-- Nodes are taken out in order until none is left. -/
theorem popUpTo_eq (h : Ring d xs) {n : Nat} (hn : xs.length ≤ n) :
    ∃ d', popUpTo n d = (xs.map (·.node), d') ∧ Ring d' [] := by
  induction n generalizing d xs with
  | zero =>
    have hx : xs = [] := List.length_eq_zero_iff.mp (Nat.le_zero.mp hn)
    subst hx
    exact ⟨d, rfl, h⟩
  | succ n ih =>
    cases xs with
    | nil => exact ⟨d, by simp [popUpTo, h.popFront?_nil], h⟩
    | cons l xs =>
      obtain ⟨d1, hd, hr⟩ := h.popFront?_cons
      obtain ⟨d', hd', hr'⟩ := ih hr (by simpa using hn)
      exact ⟨d', by simp [popUpTo, hd, hd'], hr'⟩

theorem drain_eq (h : Ring d xs) : ∃ d', d.drain = (xs.map (·.node), d') ∧ Ring d' [] :=
  h.popUpTo_eq (Nat.le_of_lt h.length_lt_size)

end Ring

end BoundedCache.Deque
