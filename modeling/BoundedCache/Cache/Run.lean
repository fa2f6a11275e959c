import BoundedCache.Cache.Dispatch
import BoundedCache.Cache.Probe

namespace BoundedCache

namespace Cache

def underLock (ops : Cache → List Step × Cache) (c : Cache) : List Step × Cache :=
  let (steps, after) := ops { c with lockHeld := true }
  (steps, { after with lockHeld := c.lockHeld })

/-- Replays all events to nobody, running operations during the first of them. -/
def discard (ops : Cache → List Step × Cache) (c : Cache) : (Nat × List Step) × Cache :=
  let (n, c, ran) := Buffered.drain (W := Cache × Option (List Step))
    (fun _ (c, ran) =>
      match ran with
      | some steps => (c, some steps)
      | none =>
        let (steps, c) := ops c
        (c, some steps))
    (c, none)
  ((n, ran.getD []), c)

/-- Runs operations a number of times. Gives the steps of the last round. -/
def repeated (ops : Cache → List Step × Cache) : Nat → Cache → List Step × Cache
  | 0, c => ([], c)
  | 1, c => ops c
  | n + 2, c => repeated ops (n + 1) (ops c).2

/-- Runs a row of insertions. Gives the number of them that gave a value back, or the refusal that
ended the row. -/
def fill (courier : Courier) (f : Filling) : List Nat → Nat → Cache → Answer Step × Cache
  | [], replaced, c => (.count replaced, c)
  | i :: rest, replaced, c =>
    match c.put courier (f.key i) (f.value i) with
    | (.returned previous, c) =>
      fill courier f rest (if previous.isSome then replaced + 1 else replaced) c
    | (.refused message, c) => (.refused message, c)
    | (.blocked, c) => (.blocked, c)

end Cache

mutual

def Op.run (courier : Courier) : Op → Cache → Step × Cache
  | .call request, c =>
    let (answer, c) := request.run courier c
    (c.step (.call request) answer none, c)
  | .probe request, c =>
    let (answer, c) := c.probe courier request
    (c.step (.probe request) answer none, c)
  | .interrupted request meanwhile, c =>
    match request.start courier c with
    | .settled answer c => (c.step (.call request) answer none, c)
    | .gap rest =>
      let (steps, c) := Op.runAll courier meanwhile c
      let (answer, c) := rest.resume courier c
      (c.step (.call request) answer (some steps), c)
  | .hold ops, c =>
    let (steps, c) := c.underLock (Op.runAll courier ops)
    (c.step .block (.steps steps) none, c)
  | .contended ops, c =>
    let (steps, c) := Op.runAll courier ops c
    (c.step .block (.steps steps) none, c)
  | .discard ops, c =>
    let ((n, steps), c) := c.discard (Op.runAll courier ops)
    (c.step .block (.discarded n steps) none, c)
  | .repeated times ops, c =>
    let (steps, c) := Cache.repeated (Op.runAll courier ops) times c
    (c.step .block (.steps steps) none, c)
  | .fill row, c =>
    let (answer, c) := c.fill courier row row.numbers 0
    (c.step .block answer none, c)

def Op.runAll (courier : Courier) : List Op → Cache → List Step × Cache
  | [], c => ([], c)
  | op :: rest, c =>
    let (step, c) := Op.run courier op c
    let (steps, c) := Op.runAll courier rest c
    (step :: steps, c)

end

namespace Cache

def deliver : Courier := Relaying.deliver fun script c => Op.runAll Courier.busy script c

/-- During a delivery, the courier does what a delivery that has just begun would do. -/
theorem deliver_eq_busy {c : Cache} (h : c.relay.listener = none) : c.deliver = Courier.busy c :=
  Relaying.deliver_of_away _ h

end Cache

/-- What is reported of a top-level operation: its step, and what happened since the operation
before it. -/
structure Report where
  step : Step
  notices : List (Notice (List Step))
  drains : List DrainRecord

namespace Cache

def perform : List Op → Cache → List Report × Cache
  | [], c => ([], c)
  | op :: rest, c =>
    let (step, next) := op.run Cache.deliver c
    let report := ⟨step, next.relay.notices.drop c.relay.notices.length,
      next.drains.drop c.drains.length⟩
    let (reports, last) := perform rest next
    (report :: reports, last)

end Cache

end BoundedCache
