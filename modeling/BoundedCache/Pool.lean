import BoundedCache.Node

namespace BoundedCache

abbrev NodeId := Nat

/-- All nodes that were ever made. A number is the identity of a node: it outlives retirement and is
never given out again. -/
structure Pool where
  nodes : Array Node := #[]

namespace Pool

def node? (p : Pool) (id : NodeId) : Option Node := p.nodes[id]?

def held (p : Pool) (id : NodeId) : Option Held := (p.node? id).bind (·.held)

def isRetired (p : Pool) (id : NodeId) : Bool := (p.held id).isNone

def key (p : Pool) (id : NodeId) : Key := ((p.node? id).map (·.key)).getD ""

def load (p : Pool) (id : NodeId) : Option Sight := (p.node? id).bind Node.load

def next (p : Pool) : NodeId := p.nodes.size

def add (p : Pool) (key : Key) (held : Held) : Pool :=
  { p with nodes := p.nodes.push { key, held := some held } }

/-- Runs a write on one node. A number without a node behaves as a retired node. -/
def write (p : Pool) (id : NodeId) (f : Node → Except Refusal (Held × Node)) :
    Except Refusal (Held × Pool) :=
  match p.node? id with
  | none => .error .retired
  | some n =>
    match f n with
    | .ok (held, n) => .ok (held, { p with nodes := p.nodes.setIfInBounds id n })
    | .error refusal => .error refusal

def swapWhen (p : Pool) (id : NodeId) (accepts : Value → Bool) (next : Option Held) :
    Except Refusal (Held × Pool) :=
  p.write id (·.swapWhen accepts next)

def swapSeen (p : Pool) (id : NodeId) (seen : Sight) (accepts : Value → Bool)
    (next : Option Held) : Except Refusal (Held × Pool) :=
  p.write id (·.swapSeen seen accepts next)

def replace (p : Pool) (id : NodeId) (fresh : Held) : Option (Held × Pool) :=
  (p.swapWhen id (fun _ => true) (some fresh)).toOption

def retire (p : Pool) (id : NodeId) : Option (Held × Pool) :=
  (p.swapWhen id (fun _ => true) none).toOption

theorem node?_add (p : Pool) (key : Key) (held : Held) (id : NodeId) :
    (p.add key held).node? id =
      if id = p.next then some { key, held := some held } else p.node? id := by
  simp only [node?, add, next, Array.getElem?_push]
  rfl

/-- A write that goes through has found a live node, and touches no other. -/
theorem write_eq_ok {p q : Pool} {id : NodeId} {f : Node → Except Refusal (Held × Node)}
    {held : Held} (h : p.write id f = .ok (held, q)) :
    ∃ n m, p.node? id = some n ∧ f n = .ok (held, m) ∧
      ∀ other, q.node? other = if other = id then some m else p.node? other := by
  unfold write at h
  split at h
  · cases h
  · rename_i n hn
    split at h
    · rename_i last m hf
      cases h
      refine ⟨n, m, hn, hf, fun other => ?_⟩
      have hlt : id < p.nodes.size := (Array.getElem?_eq_some_iff.mp hn).1
      simp only [node?, Array.getElem?_setIfInBounds]
      by_cases ho : other = id
      · subst ho
        simp [hlt]
      · simp [ho, Ne.symm ho]
    · cases h

end Pool

end BoundedCache
