import BoundedCache.Text.Quoted
import BoundedCache.Weigher

namespace BoundedCache

/-- A value with the weight it was given when it was written. -/
structure Held where
  value : Value
  weight : Weight
  deriving DecidableEq, Repr

inductive Refusal where
  | retired
  | unequal
  deriving DecidableEq, Repr

/-- Every write advances the stamp: two loads that agree on the stamp saw the same write, while
equal values alone say nothing. -/
structure Node where
  key : Key
  /-- Nothing once the node is retired. -/
  held : Option Held
  stamp : Nat := 0
  deriving DecidableEq, Repr

structure Sight where
  held : Held
  stamp : Nat
  deriving DecidableEq, Repr

namespace Node

def isRetired (n : Node) : Bool := n.held.isNone

def write (n : Node) (next : Option Held) : Node :=
  { n with held := next, stamp := n.stamp + 1 }

def load (n : Node) : Option Sight := n.held.map (⟨·, n.stamp⟩)

def swapWhen (n : Node) (accepts : Value → Bool) (next : Option Held) :
    Except Refusal (Held × Node) :=
  match n.held with
  | none => .error .retired
  | some held => if accepts held.value then .ok (held, n.write next) else .error .unequal

/-- Finishes a conditional write that has loaded `seen`. The loaded value is compared first; if the
node was written since, the comparison starts over with what the node holds now. -/
def swapSeen (n : Node) (seen : Sight) (accepts : Value → Bool) (next : Option Held) :
    Except Refusal (Held × Node) :=
  if accepts seen.held.value then
    if n.stamp = seen.stamp then .ok (seen.held, n.write next) else n.swapWhen accepts next
  else .error .unequal

/-- A conditional write that nothing comes between is a plain one. -/
theorem swapSeen_load {n : Node} {seen : Sight} (h : n.load = some seen)
    (accepts : Value → Bool) (next : Option Held) :
    n.swapSeen seen accepts next = n.swapWhen accepts next := by
  obtain ⟨held, hh, rfl⟩ := Option.map_eq_some_iff.mp h
  simp [swapSeen, swapWhen, hh]

theorem swapWhen_of_retired {n : Node} (h : n.held = none) (accepts : Value → Bool)
    (next : Option Held) : n.swapWhen accepts next = .error .retired := by
  simp [swapWhen, h]

/-- A conditional write needs a live node, and changes nothing of it but the value. -/
theorem swapWhen_eq_ok_iff {n m : Node} {accepts : Value → Bool} {next : Option Held}
    {held : Held} :
    n.swapWhen accepts next = .ok (held, m) ↔
      n.held = some held ∧ accepts held.value = true ∧ m = n.write next := by
  unfold swapWhen
  cases hh : n.held with
  | none => simp
  | some current =>
    by_cases ha : accepts current.value = true <;> simp [ha] <;> grind

/-- The slot as diagnostics show it: the greatest 64-bit word stands for no slot. -/
def slotNumber (slot : Option Nat) : Nat := slot.getD (UInt64.size - 1)

def describe (n : Node) (slot : Option Nat) : String :=
  let weight := match n.held with
    | some held => "Some(" ++ toString held.weight.toNat ++ ")"
    | none => "None"
  "Node \x7b key: " ++ Text.quoted n.key ++ ", weight: " ++ weight ++
    ", slot: " ++ toString (slotNumber slot) ++ " \x7d"

end Node

end BoundedCache
