import BoundedCache.Proofs.Cache.Runs

namespace BoundedCache

mutual

def Op.written : Op → Bool
  | .call _ | .probe _ | .fill _ => true
  | .interrupted _ meanwhile => Op.allWritten meanwhile
  | .hold ops | .contended ops | .discard ops => Op.allWritten ops
  | .repeated .. => false

def Op.allWritten : List Op → Bool
  | [] => true
  | op :: rest => op.written && Op.allWritten rest

end

mutual

def Op.writeOut : Op → List Op
  | .call request => [.call request]
  | .probe request => [.probe request]
  | .interrupted request meanwhile => [.interrupted request (Op.writeOutAll meanwhile)]
  | .hold ops => [.hold (Op.writeOutAll ops)]
  | .contended ops => [.contended (Op.writeOutAll ops)]
  | .discard ops => [.discard (Op.writeOutAll ops)]
  | .repeated times ops => (List.replicate times (Op.writeOutAll ops)).flatten
  | .fill row => [.fill row]

def Op.writeOutAll : List Op → List Op
  | [] => []
  | op :: rest => op.writeOut ++ Op.writeOutAll rest

end

namespace Op

theorem allWritten_append (ops later : List Op) :
    allWritten (ops ++ later) = (allWritten ops && allWritten later) := by
  induction ops with
  | nil => rfl
  | cons op ops ih => rw [List.cons_append, allWritten, ih, allWritten, Bool.and_assoc]

theorem allWritten_rounds {ops : List Op} (h : allWritten ops = true) (times : Nat) :
    allWritten (List.replicate times ops).flatten = true := by
  induction times with
  | zero => rfl
  | succ times ih => rw [List.replicate_succ, List.flatten_cons, allWritten_append, h, ih]; rfl

end Op

mutual

theorem Op.allWritten_writeOut : ∀ op : Op, Op.allWritten op.writeOut = true
  | .call _ | .probe _ | .fill _ => rfl
  | .interrupted _ ops | .hold ops | .contended ops | .discard ops => by
    simp [Op.writeOut, Op.allWritten, Op.written, Op.allWritten_writeOutAll ops]
  | .repeated times ops => Op.allWritten_rounds (Op.allWritten_writeOutAll ops) times

theorem Op.allWritten_writeOutAll : ∀ ops : List Op, Op.allWritten (Op.writeOutAll ops) = true
  | [] => rfl
  | op :: rest => by
    rw [Op.writeOutAll, Op.allWritten_append, Op.allWritten_writeOut op,
      Op.allWritten_writeOutAll rest]
    rfl

end

mutual

/-- Without repetitions there is nothing to write out. -/
theorem Op.writeOut_eq_self : ∀ op : Op, op.written = true → op.writeOut = [op]
  | .call _, _ | .probe _, _ | .fill _, _ => rfl
  | .interrupted _ ops, h | .hold ops, h | .contended ops, h | .discard ops, h => by
    rw [Op.writeOut, Op.writeOutAll_eq_self ops h]

theorem Op.writeOutAll_eq_self : ∀ ops : List Op, Op.allWritten ops = true →
    Op.writeOutAll ops = ops
  | [], _ => rfl
  | op :: rest, h => by
    rw [Op.allWritten, Bool.and_eq_true] at h
    rw [Op.writeOutAll, Op.writeOut_eq_self op h.1, Op.writeOutAll_eq_self rest h.2]
    rfl

end

/-- Written out once, nothing is left to write out. -/
theorem Op.writeOutAll_writeOutAll (ops : List Op) :
    Op.writeOutAll (Op.writeOutAll ops) = Op.writeOutAll ops :=
  Op.writeOutAll_eq_self _ (Op.allWritten_writeOutAll ops)

namespace Cache

variable {ops ops' : Cache → List Step × Cache}

/-- Runs operations during the first event of a discarding, and nothing during the others. -/
def during (ops : Cache → List Step × Cache) :
    Event → Cache × Option (List Step) → Cache × Option (List Step) :=
  fun _ (c, ran) =>
    match ran with
    | some steps => (c, some steps)
    | none =>
      let (steps, c) := ops c
      (c, some steps)

theorem discard_eq (ops : Cache → List Step × Cache) (c : Cache) :
    c.discard ops = (((Buffered.drain (during ops) (c, none)).1,
      (Buffered.drain (during ops) (c, none)).2.2.getD []),
        (Buffered.drain (during ops) (c, none)).2.1) := rfl

/-- What a discarding leaves does not depend on what is reported of the operations in it. -/
theorem discard_congr (h : ∀ c, (ops' c).2 = (ops c).2) (c : Cache) :
    (c.discard ops').2 = (c.discard ops).2 := by
  -- All that matters is whether the operations have run already.
  let marked (ops : Cache → List Step × Cache) (_ : Event) (w : Cache × Bool) : Cache × Bool :=
    if w.2 then w else ((ops w.1).2, true)
  have hmap (ops : Cache → List Step × Cache) :
      (c.discard ops).2 = (Buffered.drain (marked ops) (c, false)).2.1 := by
    have hstep (ev : Event) (w : Cache × Option (List Step)) :
        ((during ops ev w).1, (during ops ev w).2.isSome) = marked ops ev (w.1, w.2.isSome) := by
      obtain ⟨c, ran⟩ := w
      cases ran <;> rfl
    have hdrain := Buffered.drain_map (f := fun w => (w.1, w.2.isSome)) (fun _ => rfl)
      (fun _ _ => rfl) hstep (c, none)
    rw [discard_eq]
    exact (congrArg (·.2.1) hdrain).symm
  have hsame : marked ops' = marked ops := by
    funext ev w
    simp only [marked, h]
  rw [hmap, hmap, hsame]

/-- A repetition leaves what its rounds leave. -/
theorem runAll_rounds (courier : Courier) {round : List Op}
    (h : ∀ c, (Op.runAll courier round c).2 = (ops c).2) (times : Nat) (c : Cache) :
    (Op.runAll courier (List.replicate times round).flatten c).2 =
      (Cache.repeated ops times c).2 := by
  fun_induction Cache.repeated ops times c with
  | case1 c => rfl
  | case2 c => simp [h]
  | case3 n c ih =>
    rw [List.replicate_succ, List.flatten_cons, Op.runAll_append, h]
    exact ih

end Cache

mutual

/-- Written out, an operation leaves the same cache. -/
theorem Op.runAll_writeOut (courier : Courier) :
    ∀ (op : Op) (c : Cache), (Op.runAll courier op.writeOut c).2 = (op.run courier c).2
  | .call _, _ | .probe _, _ | .fill _, _ => rfl
  | .interrupted request meanwhile, c => by
    simp only [Op.writeOut, Op.runAll, Op.run]
    cases request.start courier c with
    | settled answer after => rfl
    | gap s => simp only [Op.runAll_writeOutAll courier meanwhile c]
  | .hold ops, c => by
    simp only [Op.writeOut, Op.runAll, Op.run, Cache.underLock, Op.runAll_writeOutAll courier ops]
  | .contended ops, c => Op.runAll_writeOutAll courier ops c
  | .discard ops, c => Cache.discard_congr (Op.runAll_writeOutAll courier ops) c
  | .repeated times ops, c => Cache.runAll_rounds courier (Op.runAll_writeOutAll courier ops) times c

theorem Op.runAll_writeOutAll (courier : Courier) :
    ∀ (ops : List Op) (c : Cache),
      (Op.runAll courier (Op.writeOutAll ops) c).2 = (Op.runAll courier ops c).2
  | [], _ => rfl
  | op :: rest, c => by
    rw [Op.writeOutAll, Op.runAll_append, Op.runAll_writeOut courier op c]
    exact Op.runAll_writeOutAll courier rest _

end

end BoundedCache
