import BoundedCache.Proofs.Cache.Calls

namespace BoundedCache

/-- Which operations a run is made of. Calls run plainly, in the gap of another call, on a contended
lock, and under a foreign lock where `hold` allows it. -/
structure Scope where
  call : Call → Bool := fun _ => true
  hold : Bool := false
  /-- Events that may be recorded about a mapped node beside those that calls record. -/
  record : EventKind → Bool := fun _ => false

mutual

def Op.within (scope : Scope) : Op → Bool
  | .call request => scope.call request
  | .probe (.record _ _ kind) => scope.record kind
  | .interrupted request meanwhile => scope.call request && Op.allWithin scope meanwhile
  | .hold ops => scope.hold && Op.allWithin scope ops
  | .contended ops => Op.allWithin scope ops
  | _ => false

def Op.allWithin (scope : Scope) : List Op → Bool
  | [] => true
  | op :: rest => op.within scope && Op.allWithin scope rest

end

def Scope.calls : Scope := { hold := true }

def Scope.Allows (scope : Scope) (script : List Op) : Prop := Op.allWithin scope script = true

theorem Op.allWithin_append (scope : Scope) (ops later : List Op) :
    Op.allWithin scope (ops ++ later) =
      (Op.allWithin scope ops && Op.allWithin scope later) := by
  induction ops with
  | nil => rfl
  | cons op ops ih => rw [List.cons_append, Op.allWithin, ih, Op.allWithin, Bool.and_assoc]

variable {scope : Scope} {courier : Courier} {R : List Deed → Cache → Cache → Prop}

/-- A relation that holds across everything that a courier's calls do within a scope. -/
structure Lawful (scope : Scope) (courier : Courier) (R : List Deed → Cache → Cache → Prop) :
    Prop where
  refl : ∀ c, R [] c c
  trans : ∀ {ds ds' : List Deed} {c c' c'' : Cache}, c.Evolves c' → c'.Evolves c'' →
    R ds c c' → R ds' c' c'' → R (ds ++ ds') c c''
  call : ∀ {call : Call} {answer : Answer Step} {c c' : Cache}, scope.call call = true →
    c.Proper scope.Allows → c.Performs courier call answer c' → R [⟨.call call, answer⟩] c c'
  record : ∀ {key : Key} {stripe : Nat} {kind : EventKind} {c : Cache}, scope.record kind = true →
    c.Proper scope.Allows →
    R [⟨.probe (.record key stripe kind), (c.probe courier (.record key stripe kind)).1⟩] c
      (c.probe courier (.record key stripe kind)).2
  hold : ∀ {ds : List Deed} {c c' : Cache}, scope.hold = true →
    Cache.Evolves { c with lockHeld := true } c' → R ds { c with lockHeld := true } c' →
    R ds c { c' with lockHeld := c.lockHeld }

namespace Cache

variable {c c' : Cache} {P : List Op → Prop}

/-- What was logged before is still logged. -/
theorem Evolves.reactions_eq (h : c.Evolves c') : ∃ later, c'.reactions = c.reactions ++ later := by
  obtain ⟨later, hlater⟩ := h.notices
  exact ⟨_, by rw [reactions, ← hlater, List.flatMap_append]; rfl⟩

theorem Evolves.mem_reactions (h : c.Evolves c') {d : Deed} (hd : d ∈ c.reactions) :
    d ∈ c'.reactions := by
  obtain ⟨later, hlater⟩ := h.reactions_eq
  rw [hlater]
  exact List.mem_append_left _ hd

/-- A recorded event is about a live node, or nothing was recorded. -/
theorem probe_record_cases (hp : c.engine.Paired) (courier : Courier) (key : Key) (stripe : Nat)
    (kind : EventKind) :
    (c.probe courier (.record key stripe kind)).2 = c ∨
    ∃ id last b, c.engine.pool.held id = some last ∧
      c.engine.buffers.record (stripe % c.engine.buffers.count) ⟨kind, id⟩ = .ok b ∧
      (c.probe courier (.record key stripe kind)).2 =
        { c with engine := { c.engine with buffers := b } } := by
  simp only [probe, onNode]
  cases hk : c.engine.store.get? key with
  | none => exact Or.inl rfl
  | some id =>
    obtain ⟨last, hl⟩ := hp.alive hk
    simp only [recordRaw]
    cases hr : c.engine.buffers.record (stripe % c.engine.buffers.count) ⟨kind, id⟩ with
    | error back => exact Or.inl rfl
    | ok b => exact Or.inr ⟨id, last, b, hl, hr, rfl⟩

theorem Evolves.record (hp : c.engine.Paired) (courier : Courier) (key : Key) (stripe : Nat)
    (kind : EventKind) : c.Evolves (c.probe courier (.record key stripe kind)).2 := by
  rcases probe_record_cases hp courier key stripe kind with he | ⟨id, last, b, _, hb, he⟩
  · rw [he]
    exact .refl c
  · rw [he]
    exact .rebuffer hb

theorem Evolves.underLock (h : Evolves { c with lockHeld := true } c') :
    c.Evolves { c' with lockHeld := c.lockHeld } :=
  ⟨h.engine, h.paired, h.weigher, rfl, h.enabled, fun P hs => h.stocked P hs, h.notices, h.drains⟩

theorem Proper.underLock (h : c.Proper P) : Proper P { c with lockHeld := true } :=
  ⟨h.paired, h.stocked⟩

end Cache

theorem Op.runAll_append (courier : Courier) (ops later : List Op) (c : Cache) :
    Op.runAll courier (ops ++ later) c =
      ((Op.runAll courier ops c).1 ++ (Op.runAll courier later (Op.runAll courier ops c).2).1,
        (Op.runAll courier later (Op.runAll courier ops c).2).2) := by
  induction ops generalizing c with
  | nil => rfl
  | cons op ops ih => simp only [List.cons_append, Op.runAll, ih]

mutual

/-- A lawful relation holds across an operation. -/
theorem Op.run_spec (law : Lawful scope courier R) (hs : courier.Steady scope.Allows) :
    ∀ (op : Op) (c : Cache), op.within scope = true → c.Proper scope.Allows →
      c.Evolves (op.run courier c).2 ∧ R (op.run courier c).1.deeds c (op.run courier c).2
  | .call request, c => fun hw hp => by
    have hperforms := request.run_performs courier hp.paired
    exact ⟨hperforms.evolves hs hp, law.call hw hp hperforms⟩
  | .probe p, c => fun hw hp => by
    cases p with
    | record key stripe kind =>
      exact ⟨.record hp.paired courier key stripe kind, law.record hw hp⟩
    | _ => cases hw
  | .interrupted request meanwhile, c => fun hw hp => by
    rw [Op.within, Bool.and_eq_true] at hw
    have hstart := request.start_spec courier hp.paired
    unfold Op.run
    cases hcall : request.start courier c with
    | settled answer c' =>
      rw [hcall] at hstart
      exact ⟨hstart.evolves hs hp, law.call hw.1 hp hstart⟩
    | gap s =>
      rw [hcall] at hstart
      obtain ⟨hgap, hrel⟩ := Op.runAll_spec law hs meanwhile c hw.2 hp
      have hp' := hgap.proper hp
      have hperforms := Suspended.resume_performs courier (hgap.fits hstart) hp'.paired
      have hrest := hperforms.evolves hs hp'
      exact ⟨hgap.trans hrest, law.trans hgap hrest hrel (law.call hw.1 hp' hperforms)⟩
  | .hold ops, c => fun hw hp => by
    rw [Op.within, Bool.and_eq_true] at hw
    obtain ⟨hrun, hrel⟩ := Op.runAll_spec law hs ops { c with lockHeld := true } hw.2 hp.underLock
    exact ⟨hrun.underLock, law.hold hw.1 hrun hrel⟩
  | .contended ops, c => fun hw hp => Op.runAll_spec law hs ops c hw hp
  | .discard _, _ | .repeated .., _ | .fill _, _ => fun hw _ => by cases hw

/-- A lawful relation holds across operations that run one after the other. -/
theorem Op.runAll_spec (law : Lawful scope courier R) (hs : courier.Steady scope.Allows) :
    ∀ (ops : List Op) (c : Cache), Op.allWithin scope ops = true → c.Proper scope.Allows →
      c.Evolves (Op.runAll courier ops c).2 ∧
        R (Step.allDeeds (Op.runAll courier ops c).1) c (Op.runAll courier ops c).2
  | [], c, _, _ => ⟨.refl c, law.refl c⟩
  | op :: rest, c, hw, hp => by
    rw [Op.allWithin, Bool.and_eq_true] at hw
    obtain ⟨hop, hrel⟩ := Op.run_spec law hs op c hw.1 hp
    obtain ⟨hrest, hrel'⟩ := Op.runAll_spec law hs rest (op.run courier c).2 hw.2 (hop.proper hp)
    exact ⟨hop.trans hrest, law.trans hop hrest hrel hrel'⟩

end

theorem Lawful.trivial (scope : Scope) (courier : Courier) :
    Lawful scope courier fun _ _ _ => True := by
  constructor <;> simp

theorem Op.run_evolves (hs : courier.Steady scope.Allows) (op : Op) (c : Cache)
    (hw : op.within scope = true) (hp : c.Proper scope.Allows) : c.Evolves (op.run courier c).2 :=
  (Op.run_spec (.trivial scope courier) hs op c hw hp).1

theorem Op.runAll_evolves (hs : courier.Steady scope.Allows) (ops : List Op) (c : Cache)
    (hw : Op.allWithin scope ops = true) (hp : c.Proper scope.Allows) :
    c.Evolves (Op.runAll courier ops c).2 :=
  (Op.runAll_spec (.trivial scope courier) hs ops c hw hp).1

end BoundedCache
