import BoundedCache.Proofs.Deque.Akin

namespace BoundedCache

namespace Deque

inductive Request where
  | pushBack (node : NodeId) (weight : Weight)
  | unlink (slot : Slot)
  | moveToBack (slot : Slot)
  | setWeight (slot : Slot) (weight : Weight)
  | drain
  deriving DecidableEq, Repr

inductive Reply where
  | done
  | linked (slot : Slot)
  | taken (item : Option (NodeId × Weight))
  | drained (nodes : List NodeId)
  deriving DecidableEq, Repr

structure View where
  contents : List (NodeId × Weight)
  recorded : List (Option Slot)
  length : Nat
  weightedSize : Nat
  head : Option Slot
  deriving DecidableEq, Repr

def view (d : Deque) : View where
  contents := d.contents
  recorded := d.contents.map fun p => d.slotOf p.1
  length := d.length
  weightedSize := d.weightedSize
  head := d.head?

def ask (d : Deque) : Request → Reply × Deque
  | .pushBack node weight =>
    let (slot, d) := d.pushBack node weight
    (.linked slot, d)
  | .unlink slot =>
    match d.unlink slot with
    | none => (.taken none, d)
    | some (item, d) => (.taken (some item), d)
  | .moveToBack slot => (.done, d.moveToBack slot)
  | .setWeight slot weight => (.done, d.setWeight slot weight)
  | .drain =>
    let (nodes, d) := d.drain
    (.drained nodes, d)

def askAll : List Request → Deque → List (Reply × View)
  | [], _ => []
  | request :: rest, d =>
    let (reply, d) := d.ask request
    (reply, d.view) :: askAll rest d

end Deque

/-- A list of linked nodes, least recently used first. -/
structure Roll where
  entries : List Linked := []
  freed : List Slot := []
  /-- The next slot that no node had yet. -/
  fresh : Slot := 1

namespace Roll

def view (r : Roll) : Deque.View where
  contents := r.entries.map fun l => (l.node, l.weight)
  recorded := r.entries.map fun l => some l.slot
  length := r.entries.length
  weightedSize := (r.entries.map (·.weight.toNat)).sum
  head := r.entries.head?.map (·.slot)

def pick? (r : Roll) (slot : Slot) : Option (Linked × List Linked) :=
  (r.entries.find? (·.slot = slot)).map fun l => (l, r.entries.filter (·.slot ≠ slot))

def append (r : Roll) (node : NodeId) (weight : Weight) : Slot × Roll :=
  match r.freed with
  | slot :: rest => (slot, { r with entries := r.entries ++ [⟨slot, node, weight⟩], freed := rest })
  | [] =>
    (r.fresh, { r with
      entries := r.entries ++ [⟨r.fresh, node, weight⟩]
      fresh := r.fresh + 1 })

def ask (r : Roll) : Deque.Request → Deque.Reply × Roll
  | .pushBack node weight =>
    let (slot, r) := r.append node weight
    (.linked slot, r)
  | .unlink slot =>
    match r.pick? slot with
    | none => (.taken none, r)
    | some (l, others) =>
      (.taken (some (l.node, l.weight)), { r with entries := others, freed := slot :: r.freed })
  | .moveToBack slot =>
    match r.pick? slot with
    | none => (.done, r)
    | some (l, others) => (.done, { r with entries := others ++ [l] })
  | .setWeight slot weight =>
    (.done, { r with
      entries := r.entries.map fun l => if l.slot = slot then { l with weight } else l })
  | .drain =>
    (.drained (r.entries.map (·.node)), { r with
      entries := []
      freed := (r.entries.map (·.slot)).reverse ++ r.freed })

def askAll : List Deque.Request → Roll → List (Deque.Reply × Deque.View)
  | [], _ => []
  | request :: rest, r =>
    let (reply, r) := r.ask request
    (reply, r.view) :: askAll rest r

/-- Only a node that is not linked is pushed, and only linked slots are moved or weighed anew. Any
index may be unlinked. -/
def Admits (r : Roll) : Deque.Request → Prop
  | .pushBack node _ => node ∉ r.entries.map (·.node)
  | .moveToBack slot | .setWeight slot _ => slot ∈ r.entries.map (·.slot)
  | .unlink _ | .drain => True

instance (r : Roll) : DecidablePred r.Admits
  | .pushBack node _ => inferInstanceAs (Decidable (node ∉ r.entries.map (·.node)))
  | .moveToBack slot | .setWeight slot _ =>
    inferInstanceAs (Decidable (slot ∈ r.entries.map (·.slot)))
  | .unlink _ | .drain => inferInstanceAs (Decidable True)

def AdmitsAll : List Deque.Request → Roll → Prop
  | [], _ => True
  | request :: rest, r => r.Admits request ∧ AdmitsAll rest (r.ask request).2

instance decidableAdmitsAll : (requests : List Deque.Request) → (r : Roll) →
    Decidable (AdmitsAll requests r)
  | [], _ => inferInstanceAs (Decidable True)
  | request :: rest, r =>
    haveI := decidableAdmitsAll rest (r.ask request).2
    inferInstanceAs (Decidable (r.Admits request ∧ AdmitsAll rest (r.ask request).2))

end Roll

namespace Deque

variable {d d' : Deque} {xs ys : List Linked} {l : Linked} {s : Slot} {id : NodeId} {w : Weight}
  {item : NodeId × Weight} {nodes : List NodeId} {n : Nat} {r : Roll} {request : Request}
  {requests : List Request}

/-- A node takes the latest freed slot. -/
theorem pushBack_of_free (id : NodeId) (w : Weight) {rest : List Slot} (h : d.free = s :: rest) :
    (d.pushBack id w).1 = s ∧ (d.pushBack id w).2.free = rest ∧
      (d.pushBack id w).2.links.size = d.links.size := by
  simp [pushBack, place, h]

/-- Without a freed slot the arena grows by one. -/
theorem pushBack_of_free_nil (id : NodeId) (w : Weight) (h : d.free = []) :
    (d.pushBack id w).1 = d.links.size ∧ (d.pushBack id w).2.free = [] ∧
      (d.pushBack id w).2.links.size = d.links.size + 1 := by
  simp [pushBack, place, h]

theorem arena_unlink (h : d.unlink s = some (item, d')) :
    d'.free = s :: d.free ∧ d'.links.size = d.links.size := by
  obtain ⟨node, _, he⟩ := Option.map_eq_some_iff.mp h
  cases he
  exact ⟨rfl, by simp⟩

theorem arena_moveToBack (d : Deque) (s : Slot) :
    (d.moveToBack s).free = d.free ∧ (d.moveToBack s).links.size = d.links.size := by
  unfold moveToBack
  split
  · exact ⟨rfl, rfl⟩
  · split <;> simp

theorem arena_setWeight (d : Deque) (s : Slot) (w : Weight) :
    (d.setWeight s w).free = d.free ∧ (d.setWeight s w).links.size = d.links.size := by
  unfold setWeight
  split
  · exact ⟨rfl, by simp⟩
  · exact ⟨rfl, rfl⟩

namespace Ring

/-- The slots are freed in list order, so the last of them is the latest. -/
theorem arena_popUpTo (h : Ring d xs) (hn : xs.length ≤ n) (hd : popUpTo n d = (nodes, d')) :
    d'.free = (xs.map (·.slot)).reverse ++ d.free ∧ d'.links.size = d.links.size := by
  induction xs generalizing d n nodes with
  | nil =>
    have : d' = d := by
      cases n <;> simp_all [popUpTo, h.popFront?_nil]
    simp [this]
  | cons l xs ih =>
    cases n with
    | zero => simp at hn
    | succ n =>
      have hfirst : Ring d ([] ++ l :: xs) := h
      obtain ⟨d1, hunlink, hd1⟩ := hfirst.unlink
      have hpop : d.popFront? = some (l.node, d1) := by
        simp [popFront?, h.head?_cons, hunlink]
      simp only [popUpTo, hpop, Prod.mk.injEq] at hd
      obtain ⟨hfree, hsize⟩ := ih hd1 (by simpa using hn) (Prod.ext rfl hd.2)
      obtain ⟨hfree1, hsize1⟩ := arena_unlink hunlink
      exact ⟨by simp [hfree, hfree1], hsize.trans hsize1⟩

theorem arena_drain (h : Ring d xs) (hd : d.drain = (nodes, d')) :
    d'.free = (xs.map (·.slot)).reverse ++ d.free ∧ d'.links.size = d.links.size :=
  h.arena_popUpTo (Nat.le_of_lt h.length_lt_size) hd

/-- The slot of an entry picks that entry only. -/
theorem pick?_eq (h : Ring d (xs ++ l :: ys)) (hr : r.entries = xs ++ l :: ys) :
    r.pick? l.slot = some (l, xs ++ ys) := by
  have hfront : ∀ m ∈ xs, m.slot ≠ l.slot := fun m hm => h.slot_ne (List.mem_append_left ys hm)
  have hback : ∀ m ∈ ys, m.slot ≠ l.slot := fun m hm => h.slot_ne (List.mem_append_right xs hm)
  have hfind : xs.find? (·.slot = l.slot) = none := by simpa using hfront
  have hothers : (xs ++ l :: ys).filter (·.slot ≠ l.slot) = xs ++ ys := by
    rw [List.filter_append, List.filter_cons_of_neg (by simp),
      List.filter_eq_self.mpr (by simpa using hfront), List.filter_eq_self.mpr (by simpa using hback)]
  have hentry : (xs ++ l :: ys).find? (·.slot = l.slot) = some l := by
    rw [List.find?_append, hfind, Option.none_or, List.find?_cons_of_pos (by simp)]
  rw [Roll.pick?, hr, hentry, hothers, Option.map_some]

theorem map_weight_eq (h : Ring d (xs ++ l :: ys)) :
    ((xs ++ l :: ys).map fun m => if m.slot = l.slot then { m with weight := w } else m) =
      xs ++ { l with weight := w } :: ys := by
  have hothers (part : List Linked) (hpart : ∀ m ∈ part, m ∈ xs ++ ys) :
      (part.map fun m => if m.slot = l.slot then { m with weight := w } else m) = part :=
    List.map_congr_left (fun m hm => if_neg (h.slot_ne (hpart m hm))) |>.trans (List.map_id' part)
  rw [List.map_append, List.map_cons, hothers xs fun _ => List.mem_append_left ys,
    hothers ys fun _ => List.mem_append_right xs, if_pos rfl]

end Ring

/-- The deque holds the entries of the roll, and will give out the same slots. -/
structure Keeps (d : Deque) (r : Roll) : Prop where
  ring : d.Ring r.entries
  free : d.free = r.freed
  size : d.links.size = r.fresh

namespace Keeps

theorem empty : Keeps {} {} := ⟨Ring.empty, rfl, rfl⟩

theorem view_eq (h : d.Keeps r) : d.view = r.view := by
  have hcontents := h.ring.contents_eq
  have hrecorded : d.contents.map (fun p => d.slotOf p.1) = r.entries.map fun l => some l.slot := by
    rw [hcontents, List.map_map]
    exact List.map_congr_left fun l hl => h.ring.records l hl
  have hhead : d.head? = r.entries.head?.map (·.slot) := by
    have hring := h.ring
    cases hx : r.entries with
    | nil => exact (hx ▸ hring).head?_nil
    | cons l rest => exact (hx ▸ hring).head?_cons
  rw [view, Roll.view, hcontents, ← hcontents, hrecorded, hcontents, h.ring.length,
    h.ring.weightedSize, hhead]

/-- Both give out the same slot. -/
theorem pushBack (h : d.Keeps r) (hid : id ∉ r.entries.map (·.node)) :
    (r.append id w).1 = (d.pushBack id w).1 ∧ (d.pushBack id w).2.Keeps (r.append id w).2 := by
  have hring := h.ring.pushBack (w := w) (h.ring.slotOf_eq_none_iff.mpr hid)
  cases hf : r.freed with
  | nil =>
    obtain ⟨hslot, hfree, hsize⟩ := pushBack_of_free_nil id w (h.free.trans hf)
    rw [h.size] at hslot hsize
    rw [hslot] at hring
    simp only [Roll.append, hf]
    exact ⟨hslot.symm, hring, hfree, hsize⟩
  | cons s rest =>
    obtain ⟨hslot, hfree, hsize⟩ := pushBack_of_free id w (h.free.trans hf)
    rw [hslot] at hring
    simp only [Roll.append, hf]
    exact ⟨hslot.symm, hring, hfree, hsize.trans h.size⟩

/-- One request gets the same reply and keeps the two in step. -/
theorem ask (h : d.Keeps r) (ha : r.Admits request) :
    (d.ask request).1 = (r.ask request).1 ∧ (d.ask request).2.Keeps (r.ask request).2 := by
  cases request with
  | pushBack id w =>
    obtain ⟨hslot, hkeeps⟩ := h.pushBack (w := w) ha
    exact ⟨congrArg Reply.linked hslot.symm, hkeeps⟩
  | unlink s =>
    by_cases hs : s ∈ r.entries.map (·.slot)
    · obtain ⟨l, hl, rfl⟩ := List.mem_map.mp hs
      obtain ⟨front, back, hx⟩ := List.append_of_mem hl
      have hring : d.Ring (front ++ l :: back) := hx ▸ h.ring
      obtain ⟨d', hunlink, hd'⟩ := hring.unlink
      obtain ⟨hfree, hsize⟩ := arena_unlink hunlink
      simp only [Deque.ask, Roll.ask, hunlink, hring.pick?_eq hx]
      exact ⟨trivial, hd', by rw [hfree, h.free], hsize.trans h.size⟩
    · have hpick : r.pick? s = none := by
        simpa [Roll.pick?] using hs
      simp only [Deque.ask, Roll.ask, h.ring.unlink_eq_none hs, hpick]
      exact ⟨trivial, h⟩
  | moveToBack s =>
    obtain ⟨l, hl, rfl⟩ := List.mem_map.mp (show s ∈ r.entries.map (·.slot) from ha)
    obtain ⟨front, back, hx⟩ := List.append_of_mem hl
    have hring : d.Ring (front ++ l :: back) := hx ▸ h.ring
    obtain ⟨hfree, hsize⟩ := arena_moveToBack d l.slot
    simp only [Deque.ask, Roll.ask, hring.pick?_eq hx]
    exact ⟨trivial, hring.moveToBack, hfree.trans h.free, hsize.trans h.size⟩
  | setWeight s w =>
    obtain ⟨l, hl, rfl⟩ := List.mem_map.mp (show s ∈ r.entries.map (·.slot) from ha)
    obtain ⟨front, back, hx⟩ := List.append_of_mem hl
    have hring : d.Ring (front ++ l :: back) := hx ▸ h.ring
    obtain ⟨hfree, hsize⟩ := arena_setWeight d l.slot w
    simp only [Deque.ask, Roll.ask, hx, hring.map_weight_eq]
    exact ⟨trivial, hring.setWeight, hfree.trans h.free, hsize.trans h.size⟩
  | drain =>
    obtain ⟨d', hdrain, hd'⟩ := h.ring.drain_eq
    obtain ⟨hfree, hsize⟩ := h.ring.arena_drain hdrain
    simp only [Deque.ask, Roll.ask, hdrain]
    exact ⟨trivial, hd', by rw [hfree, h.free], hsize.trans h.size⟩

/-- Any requests get the same replies and show the same after each of them. -/
theorem askAll_eq (h : d.Keeps r) (ha : Roll.AdmitsAll requests r) :
    askAll requests d = Roll.askAll requests r := by
  induction requests generalizing d r with
  | nil => rfl
  | cons request rest ih =>
    obtain ⟨hfirst, hrest⟩ := ha
    obtain ⟨hreply, hkeeps⟩ := h.ask hfirst
    simp only [askAll, Roll.askAll, hreply, hkeeps.view_eq, ih hkeeps hrest]

end Keeps

/-- The deque is a list to its user, from the empty deque on and whatever is asked of it: it replies
and shows what the list does. -/
theorem askAll_eq_roll (ha : Roll.AdmitsAll requests {}) :
    askAll requests {} = Roll.askAll requests {} :=
  Keeps.empty.askAll_eq ha

/-- Slots freed one by one and by a drain, taken again the latest first; indices that are not
linked; a move of the last, the first and the only node. -/
def slotsReused : List Request :=
  [.pushBack 7 5, .moveToBack 1, .pushBack 8 3, .pushBack 9 1, .unlink 2, .unlink 2, .unlink 40,
    .pushBack 8 4, .moveToBack 1, .moveToBack 1, .setWeight 3 6, .drain, .pushBack 9 2,
    .pushBack 7 0, .unlink 3, .pushBack 6 1, .pushBack 5 1, .pushBack 4 1]

theorem askAll_slotsReused :
    (askAll slotsReused {}).map (·.1) =
      [.linked 1, .done, .linked 2, .linked 3, .taken (some (8, 3)), .taken none, .taken none,
        .linked 2, .done, .done, .done, .drained [9, 8, 7], .linked 1, .linked 2, .taken none,
        .linked 3, .linked 4, .linked 5] := by
  rw [askAll_eq_roll (by decide)]
  decide

end Deque

end BoundedCache
