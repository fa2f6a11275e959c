import BoundedCache.Pool

namespace BoundedCache

/-- What a node can have become: its key is the same, its stamp tells whether it was written, and a
retired node was not. -/
structure Node.Becomes (n m : Node) : Prop where
  key : m.key = n.key
  stamp : n.stamp ≤ m.stamp
  unwritten : m.stamp = n.stamp → m = n
  retired : n.held = none → m = n

theorem Node.Becomes.refl (n : Node) : n.Becomes n := ⟨rfl, Nat.le_refl _, fun _ => rfl, fun _ => rfl⟩

theorem Node.Becomes.trans {n m k : Node} (hm : n.Becomes m) (hk : m.Becomes k) : n.Becomes k where
  key := hk.key.trans hm.key
  stamp := Nat.le_trans hm.stamp hk.stamp
  unwritten he := by
    have hle := hm.stamp
    have hle' := hk.stamp
    have hmn := hm.unwritten (by omega)
    subst hmn
    exact hk.unwritten he
  retired he := by
    have hmn := hm.retired he
    subst hmn
    exact hk.retired he

theorem Node.Becomes.write {n : Node} {last : Held} (h : n.held = some last) (next : Option Held) :
    n.Becomes (n.write next) where
  key := rfl
  stamp := Nat.le_succ _
  unwritten he := absurd he (by simp [Node.write])
  retired he := absurd (h.symm.trans he) (by simp)

namespace Pool

variable {p q r : Pool} {id : NodeId} {key : Key} {last fresh : Held} {next : Option Held}

def Grows (p q : Pool) : Prop := ∀ id n, p.node? id = some n → ∃ m, q.node? id = some m ∧ n.Becomes m

theorem Grows.refl (p : Pool) : p.Grows p := fun _ n h => ⟨n, h, .refl n⟩

theorem Grows.trans (hq : p.Grows q) (hr : q.Grows r) : p.Grows r := by
  intro id n hn
  obtain ⟨m, hm, hnm⟩ := hq id n hn
  obtain ⟨k, hk, hmk⟩ := hr id m hm
  exact ⟨k, hk, hnm.trans hmk⟩

theorem lt_next_of_node? {n : Node} (h : p.node? id = some n) : id < p.next :=
  (Array.getElem?_eq_some_iff.mp h).1

theorem node?_of_lt_next (h : id < p.next) : ∃ n, p.node? id = some n :=
  ⟨p.nodes[id], Array.getElem?_eq_getElem h⟩

theorem lt_next_of_held (h : p.held id = some last) : id < p.next := by
  obtain ⟨n, hn, _⟩ := Option.bind_eq_some_iff.mp h
  exact lt_next_of_node? hn

theorem held_eq_none_of_next_le (h : p.next ≤ id) : p.held id = none := by
  cases hh : p.held id with
  | none => rfl
  | some last => exact absurd (lt_next_of_held hh) (Nat.not_lt.mpr h)

theorem Grows.next_le (h : p.Grows q) : p.next ≤ q.next := by
  apply Nat.le_of_not_lt
  intro hlt
  obtain ⟨n, hn⟩ := node?_of_lt_next hlt
  obtain ⟨m, hm, _⟩ := h _ n hn
  exact absurd (lt_next_of_node? hm) (Nat.lt_irrefl _)

theorem Grows.key_eq (h : p.Grows q) (hid : id < p.next) : q.key id = p.key id := by
  obtain ⟨n, hn⟩ := node?_of_lt_next hid
  obtain ⟨m, hm, hnm⟩ := h id n hn
  simp [key, hn, hm, hnm.key]

theorem Grows.held_eq_none (h : p.Grows q) (hid : id < p.next) (hh : p.held id = none) :
    q.held id = none := by
  obtain ⟨n, hn⟩ := node?_of_lt_next hid
  obtain ⟨m, hm, hnm⟩ := h id n hn
  have hheld : n.held = none := by simpa [held, hn] using hh
  rw [held, hm, hnm.retired hheld]
  exact hheld

theorem grows_add (p : Pool) (key : Key) (fresh : Held) : p.Grows (p.add key fresh) := by
  intro id n hn
  refine ⟨n, ?_, .refl n⟩
  rw [node?_add, if_neg (Nat.ne_of_lt (lt_next_of_node? hn)), hn]

@[simp] theorem next_add (p : Pool) (key : Key) (fresh : Held) :
    (p.add key fresh).next = p.next + 1 := by
  simp [next, add]

theorem held_add (p : Pool) (key : Key) (fresh : Held) (id : NodeId) :
    (p.add key fresh).held id = if id = p.next then some fresh else p.held id := by
  rw [held, node?_add]
  split <;> rfl

theorem key_add (p : Pool) (k : Key) (fresh : Held) (id : NodeId) :
    (p.add k fresh).key id = if id = p.next then k else p.key id := by
  rw [key, node?_add]
  split <;> rfl

/-- `q` is `p` after one write to a live node, which now holds `next`. -/
structure Rewrites (p q : Pool) (id : NodeId) (last : Held) (next : Option Held) : Prop where
  was : p.held id = some last
  held : ∀ other, q.held other = if other = id then next else p.held other
  key : ∀ other, q.key other = p.key other
  size : q.next = p.next
  grows : p.Grows q

/-- A write that finds a live node and writes it is a rewriting. -/
theorem rewrites_of_write {f : Node → Except Refusal (Held × Node)}
    (hf : ∀ n m held, p.node? id = some n → f n = .ok (held, m) →
      n.held = some held ∧ m = n.write next)
    (h : p.write id f = .ok (last, q)) : p.Rewrites q id last next := by
  obtain ⟨n, m, hn, hm, hq⟩ := write_eq_ok h
  obtain ⟨hlast, rfl⟩ := hf n m last hn hm
  constructor
  · simpa [Pool.held, hn] using hlast
  · intro other
    rw [Pool.held, hq]
    split
    · rfl
    · rfl
  · intro other
    rw [Pool.key, hq]
    split
    · rename_i he
      rw [he, Pool.key, hn]
      rfl
    · rfl
  · unfold write at h
    rw [hn] at h
    simp only [hm, Except.ok.injEq, Prod.mk.injEq] at h
    simp [Pool.next, ← h.2]
  · intro other k hk
    rw [hq]
    split
    · rename_i he
      rw [he, hn] at hk
      cases hk
      exact ⟨_, rfl, .write hlast next⟩
    · exact ⟨k, hk, .refl k⟩

theorem rewrites_of_swapWhen {accepts : Value → Bool}
    (h : p.swapWhen id accepts next = .ok (last, q)) :
    p.Rewrites q id last next ∧ accepts last.value = true := by
  refine ⟨rewrites_of_write (fun n m held _ hm => ?_) h, ?_⟩
  · obtain ⟨hheld, _, he⟩ := Node.swapWhen_eq_ok_iff.mp hm
    exact ⟨hheld, he⟩
  · obtain ⟨n, m, _, hm, _⟩ := write_eq_ok h
    exact (Node.swapWhen_eq_ok_iff.mp hm).2.1

theorem rewrites_of_replace (h : p.replace id fresh = some (last, q)) :
    p.Rewrites q id last (some fresh) := by
  unfold replace at h
  cases hs : p.swapWhen id (fun _ => true) (some fresh) with
  | error refusal => simp [hs, Except.toOption] at h
  | ok result =>
    simp only [hs, Except.toOption, Option.some.injEq] at h
    subst h
    exact (rewrites_of_swapWhen hs).1

theorem rewrites_of_retire (h : p.retire id = some (last, q)) : p.Rewrites q id last none := by
  unfold retire at h
  cases hs : p.swapWhen id (fun _ => true) none with
  | error refusal => simp [hs, Except.toOption] at h
  | ok result =>
    simp only [hs, Except.toOption, Option.some.injEq] at h
    subst h
    exact (rewrites_of_swapWhen hs).1

theorem node?_of_retire (h : p.retire id = some (last, q)) :
    ∃ n, p.node? id = some n ∧ n.held = some last ∧
      ∀ other, q.node? other = if other = id then some (n.write none) else p.node? other := by
  unfold retire at h
  cases hs : p.swapWhen id (fun _ => true) none with
  | error refusal => simp [hs, Except.toOption] at h
  | ok result =>
    simp only [hs, Except.toOption, Option.some.injEq] at h
    subst h
    obtain ⟨n, m, hn, hm, hq⟩ := write_eq_ok hs
    obtain ⟨hheld, _, rfl⟩ := Node.swapWhen_eq_ok_iff.mp hm
    exact ⟨n, hn, hheld, hq⟩

theorem exists_swapWhen (h : p.held id = some last) (accepts : Value → Bool)
    (ha : accepts last.value = true) (next : Option Held) :
    ∃ q, p.swapWhen id accepts next = .ok (last, q) := by
  obtain ⟨n, hn, hh⟩ := Option.bind_eq_some_iff.mp h
  have hm : n.swapWhen accepts next = .ok (last, n.write next) :=
    Node.swapWhen_eq_ok_iff.mpr ⟨hh, ha, rfl⟩
  exact ⟨_, by simp [swapWhen, write, hn, hm]; rfl⟩

theorem exists_replace (h : p.held id = some last) (fresh : Held) :
    ∃ q, p.replace id fresh = some (last, q) := by
  obtain ⟨q, hq⟩ := exists_swapWhen h (fun _ => true) rfl (some fresh)
  exact ⟨q, by simp [replace, hq, Except.toOption]⟩

theorem exists_retire (h : p.held id = some last) : ∃ q, p.retire id = some (last, q) := by
  obtain ⟨q, hq⟩ := exists_swapWhen h (fun _ => true) rfl none
  exact ⟨q, by simp [retire, hq, Except.toOption]⟩

theorem retire_eq_none_iff : p.retire id = none ↔ p.held id = none := by
  constructor
  · intro h
    cases hh : p.held id with
    | none => rfl
    | some last =>
      obtain ⟨q, hq⟩ := exists_retire hh
      exact absurd (h.symm.trans hq) (by simp)
  · intro h
    cases hr : p.retire id with
    | none => rfl
    | some result => exact absurd (h.symm.trans (rewrites_of_retire hr).was) (by simp)

/-- What a load saw of a node that was not written since is what the node holds. -/
def Saw (p : Pool) (id : NodeId) (seen : Sight) : Prop :=
  ∃ n, p.node? id = some n ∧ seen.stamp ≤ n.stamp ∧
    (n.stamp = seen.stamp → n.held = some seen.held)

theorem saw_of_load {seen : Sight} (h : p.load id = some seen) : p.Saw id seen := by
  obtain ⟨n, hn, hl⟩ := Option.bind_eq_some_iff.mp h
  obtain ⟨held, hh, rfl⟩ := Option.map_eq_some_iff.mp hl
  exact ⟨n, hn, Nat.le_refl _, fun _ => hh⟩

theorem held_of_load {seen : Sight} (h : p.load id = some seen) : p.held id = some seen.held := by
  obtain ⟨n, hn, hl⟩ := Option.bind_eq_some_iff.mp h
  obtain ⟨held, hh, rfl⟩ := Option.map_eq_some_iff.mp hl
  simp [Pool.held, hn, hh]

theorem load_eq_none_iff : p.load id = none ↔ p.held id = none := by
  simp [load, held, Node.load, Option.bind_eq_none_iff]

/-- A sight stays good while the pool grows. -/
theorem Saw.grows {seen : Sight} (h : p.Saw id seen) (hq : p.Grows q) : q.Saw id seen := by
  obtain ⟨n, hn, hle, heq⟩ := h
  obtain ⟨m, hm, hnm⟩ := hq id n hn
  refine ⟨m, hm, Nat.le_trans hle hnm.stamp, fun he => ?_⟩
  have hle' := hnm.stamp
  have hmn := hnm.unwritten (by omega)
  subst hmn
  exact heq he

/-- A conditional write that goes through has written the value that was accepted. -/
theorem rewrites_of_swapSeen {seen : Sight} {accepts : Value → Bool} (hs : p.Saw id seen)
    (h : p.swapSeen id seen accepts next = .ok (last, q)) :
    p.Rewrites q id last next ∧ accepts last.value = true := by
  obtain ⟨k, hk, _, heq⟩ := hs
  have node (n m : Node) (held : Held) (hn : p.node? id = some n)
      (hm : n.swapSeen seen accepts next = .ok (held, m)) :
      n.held = some held ∧ accepts held.value = true ∧ m = n.write next := by
    rw [hk] at hn
    cases hn
    unfold Node.swapSeen at hm
    split at hm
    · rename_i ha
      split at hm
      · rename_i hst
        cases hm
        exact ⟨heq hst, ha, rfl⟩
      · exact Node.swapWhen_eq_ok_iff.mp hm
    · cases hm
  refine ⟨rewrites_of_write (fun n m held hn hm => ?_) h, ?_⟩
  · obtain ⟨hheld, _, he⟩ := node n m held hn hm
    exact ⟨hheld, he⟩
  · obtain ⟨n, m, hn, hm, _⟩ := write_eq_ok h
    exact (node n m last hn hm).2.1

/-- A conditional write that has loaded another value than it accepts changes nothing. -/
theorem swapSeen_of_unequal {seen : Sight} {accepts : Value → Bool}
    (ha : accepts seen.held.value = false) (next : Option Held) :
    ∃ refusal, p.swapSeen id seen accepts next = .error refusal := by
  unfold swapSeen write
  cases p.node? id with
  | none => exact ⟨_, rfl⟩
  | some n => simp [Node.swapSeen, ha]

/-- Nor does one whose node was retired since. -/
theorem swapSeen_of_retired {seen : Sight} (hs : p.Saw id seen) (hh : p.held id = none)
    (accepts : Value → Bool) (next : Option Held) :
    ∃ refusal, p.swapSeen id seen accepts next = .error refusal := by
  obtain ⟨n, hn, _, heq⟩ := hs
  have hnone : n.held = none := by simpa [held, hn] using hh
  have hwritten : n.stamp ≠ seen.stamp := fun he => by
    rw [heq he] at hnone
    cases hnone
  unfold swapSeen write
  simp only [hn, Node.swapSeen, if_neg hwritten, Node.swapWhen_of_retired hnone]
  cases accepts seen.held.value with
  | true => exact ⟨.retired, rfl⟩
  | false => exact ⟨.unequal, rfl⟩

/-- A conditional write that accepts what it has loaded does what it would do had it loaded what the
node holds now. -/
theorem swapSeen_eq_of_load {seen now : Sight} {accepts : Value → Bool} (hs : p.Saw id seen)
    (ha : accepts seen.held.value = true) (hl : p.load id = some now) (next : Option Held) :
    p.swapSeen id seen accepts next = p.swapSeen id now accepts next := by
  obtain ⟨n, hn, _, heq⟩ := hs
  have hload : n.load = some now := by simpa [load, hn] using hl
  have hsame : n.swapSeen seen accepts next = n.swapSeen now accepts next := by
    rw [Node.swapSeen_load hload]
    unfold Node.swapSeen
    rw [if_pos ha]
    split
    · rename_i hst
      simp [Node.swapWhen, heq hst, ha]
    · rfl
  simp only [swapSeen, write, hn, hsame]

def retireAll (p : Pool) : Pool where
  nodes := p.nodes.map fun n => if n.held.isSome then n.write none else n

theorem node?_retireAll (p : Pool) (id : NodeId) :
    p.retireAll.node? id = (p.node? id).map fun n => if n.held.isSome then n.write none else n := by
  simp [node?, retireAll]

theorem ext_node? (h : ∀ id, q.node? id = p.node? id) : q = p := by
  obtain ⟨nodes⟩ := p
  obtain ⟨nodes'⟩ := q
  exact congrArg Pool.mk (Array.ext_getElem? h)

/-- One node that is retired beforehand makes no difference. -/
theorem retireAll_of_retire (h : p.retire id = some (last, q)) : q.retireAll = p.retireAll := by
  obtain ⟨n, hn, hheld, hq⟩ := node?_of_retire h
  refine ext_node? fun other => ?_
  rw [node?_retireAll, node?_retireAll, hq]
  split
  · rename_i he
    simp [he, hn, hheld, Node.write]
  · rfl

theorem retireAll_eq_self (h : ∀ id, p.held id = none) : p.retireAll = p := by
  refine ext_node? fun id => ?_
  rw [node?_retireAll]
  cases hn : p.node? id with
  | none => rfl
  | some n =>
    have hheld : n.held = none := by simpa [held, hn] using h id
    simp [hheld]

end Pool

end BoundedCache
