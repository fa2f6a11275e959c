import BoundedCache.Assoc
import BoundedCache.Fault
import BoundedCache.Gauge

namespace BoundedCache

structure Link where
  node : Option NodeId := none
  weight : Weight := 0
  prev : Slot := 0
  next : Slot := 0
  deriving DecidableEq, Repr

/-- The recency order: a doubly linked ring in an arena of links, least recently used first. Slot 0
is the sentinel that closes the ring. No operation checks the ring before it writes to it. -/
structure Deque where
  links : Array Link := #[{}]
  free : List Slot := []
  linked : Gauge := {}
  total : Gauge := {}
  /-- The slot that each linked node records. -/
  recorded : List (NodeId × Slot) := []

structure Linked where
  slot : Slot
  node : NodeId
  weight : Weight
  deriving DecidableEq, Repr

namespace Deque

def length (d : Deque) : Nat := d.linked.value

def weightedSize (d : Deque) : Nat := d.total.value

/-- The link in a slot; beyond the arena, an empty one. -/
def link (d : Deque) (slot : Slot) : Link := d.links[slot]?.getD {}

def next (d : Deque) (slot : Slot) : Slot := (d.link slot).next

def prev (d : Deque) (slot : Slot) : Slot := (d.link slot).prev

def InArena (d : Deque) (slot : Slot) : Prop := slot < d.links.size

instance (d : Deque) (slot : Slot) : Decidable (d.InArena slot) :=
  inferInstanceAs (Decidable (slot < d.links.size))

def slotOf (d : Deque) (node : NodeId) : Option Slot := d.recorded.lookup node

def head? (d : Deque) : Option Slot := if d.next 0 = 0 then none else some (d.next 0)

def modify (d : Deque) (slot : Slot) (f : Link → Link) : Deque :=
  { d with links := d.links.modify slot f }

def setNext (d : Deque) (slot next : Slot) : Deque := d.modify slot ({ · with next })

def setPrev (d : Deque) (slot prev : Slot) : Deque := d.modify slot ({ · with prev })

/-- Joins the neighbours of a slot. The slot keeps its own view of them. -/
def detach (d : Deque) (slot : Slot) : Deque :=
  let prev := d.prev slot
  let next := d.next slot
  (d.setNext prev next).setPrev next prev

def attachBack (d : Deque) (slot : Slot) : Deque :=
  let tail := d.prev 0
  (((d.setPrev slot tail).setNext slot 0).setNext tail slot).setPrev 0 slot

def place (d : Deque) (l : Link) : Slot × Deque :=
  match d.free with
  | slot :: rest => (slot, { d with links := d.links.setIfInBounds slot l, free := rest })
  | [] => (d.links.size, { d with links := d.links.push l })

def pushBack (d : Deque) (node : NodeId) (weight : Weight) : Slot × Deque :=
  let (slot, d) := d.place { node := some node, weight }
  let d := d.attachBack slot
  (slot, { d with
    linked := d.linked.add 1
    total := d.total.add weight.toNat
    recorded := Assoc.put node slot d.recorded })

def unlink (d : Deque) (slot : Slot) : Option ((NodeId × Weight) × Deque) :=
  (d.link slot).node.map fun node =>
    let weight := (d.link slot).weight
    let d := (d.detach slot).modify slot ({ · with node := none, weight := 0 })
    ((node, weight), { d with
      free := slot :: d.free
      linked := d.linked.sub 1
      total := d.total.sub weight.toNat
      recorded := Assoc.drop node d.recorded })

def moveToBack (d : Deque) (slot : Slot) : Deque :=
  if d.prev 0 = slot then d
  else if d.InArena slot then (d.detach slot).attachBack slot
  else d

def setWeight (d : Deque) (slot : Slot) (weight : Weight) : Deque :=
  if d.InArena slot then
    { d.modify slot ({ · with weight }) with
      total := (d.total.sub (d.link slot).weight.toNat).add weight.toNat }
  else d

def popFront? (d : Deque) : Option (NodeId × Deque) :=
  match d.head? with
  | none => none
  | some slot => (d.unlink slot).map fun ((node, _), d) => (node, d)

def popUpTo : Nat → Deque → List NodeId × Deque
  | 0, d => ([], d)
  | n + 1, d =>
    match d.popFront? with
    | none => ([], d)
    | some (node, d) =>
      let (nodes, d) := popUpTo n d
      (node :: nodes, d)

/-- Takes out every node. There are never more of them than slots. -/
def drain (d : Deque) : List NodeId × Deque := popUpTo d.links.size d

def walkFrom (d : Deque) : Nat → Slot → List Linked
  | 0, _ => []
  | n + 1, slot =>
    if slot = 0 then []
    else
      match (d.link slot).node with
      | none => []
      | some node => ⟨slot, node, (d.link slot).weight⟩ :: walkFrom d n (d.next slot)

def walk (d : Deque) (n : Nat) : List Linked := d.walkFrom n (d.next 0)

/-- The linked nodes, least recently used first. -/
def toList (d : Deque) : List Linked := d.walk d.links.size

@[simp] theorem size_modify (d : Deque) (slot : Slot) (f : Link → Link) :
    (d.modify slot f).links.size = d.links.size := by
  simp [modify]

theorem link_modify (d : Deque) (slot other : Slot) (f : Link → Link) (h : d.InArena slot) :
    (d.modify slot f).link other = if other = slot then f (d.link slot) else d.link other := by
  unfold link modify
  rw [Array.getElem?_modify]
  by_cases ho : other = slot
  · subst ho
    rw [if_pos rfl, if_pos rfl, Array.getElem?_eq_getElem h]
    rfl
  · rw [if_neg (Ne.symm ho), if_neg ho]

/-- A write beyond the arena is no write. -/
theorem modify_of_not_inArena {d : Deque} {slot : Slot} (h : ¬ d.InArena slot)
    (f : Link → Link) : d.modify slot f = d := by
  have : d.links.modify slot f = d.links := by
    apply Array.ext_getElem?
    intro i
    rw [Array.getElem?_modify]
    split
    · rename_i hi
      subst hi
      rw [Array.getElem?_eq_none (Nat.le_of_not_lt h)]
      rfl
    · rfl
  simp [modify, this]

/-- The walk ends at the sentinel and at empty slots. -/
theorem walkFrom_zero (d : Deque) (n : Nat) : d.walkFrom n 0 = [] := by
  cases n <;> simp [walkFrom]

end Deque

end BoundedCache
