import BoundedCache.Cache.Check
import BoundedCache.Cache.Maintain
import BoundedCache.Cache.Write

namespace BoundedCache

namespace Reply

def answer {α : Type} (f : α → Answer Step) : Reply α → Answer Step
  | .returned a => f a
  | .refused message => .refused message
  | .blocked => .blocked

def answering {α : Type} (f : α → Answer Step) (r : Reply α × Cache) : Answer Step × Cache :=
  (r.1.answer f, r.2)

end Reply

def Answer.ofCheck (r : Except Error Unit) : Answer Step :=
  match r with
  | .ok _ => .done
  | .error e => .failed e

/-- A call in the gap that it leaves. -/
inductive Suspended where
  | insertion (rest : Insertion)
  | conditional (rest : Conditional)
  deriving DecidableEq, Repr

namespace Progress

def answering {σ α : Type} (f : α → Answer Step) (g : σ → Suspended) :
    Progress σ (Reply α) → Progress Suspended (Answer Step)
  | .settled reply c => .settled (reply.answer f) c
  | .gap rest => .gap (g rest)

end Progress

def Answer.settled (r : Answer Step × Cache) : Progress Suspended (Answer Step) :=
  .settled r.1 r.2

namespace Call

def start (courier : Courier) (call : Call) (c : Cache) : Progress Suspended (Answer Step) :=
  match call with
  | .put key value =>
    (c.startInsert courier .overwrite key value).answering .value .insertion
  | .putIfAbsent key value =>
    (c.startInsert courier .keep key value).answering .value .insertion
  | .removeIf key expected => (c.startRemoveIf key expected).answering .flag .conditional
  | .replaceIf key expected value =>
    (c.startReplaceIf key expected value).answering .flag .conditional
  | .get key =>
    let (value, c) := c.get key
    .settled (.value value) c
  | .getQuietly key => .settled (.value (c.getQuietly key)) c
  | .contains key => .settled (.flag (c.contains key)) c
  | .replace key value => Answer.settled (Reply.answering .value (c.replace courier key value))
  | .remove key => Answer.settled (Reply.answering .value (c.remove courier key))
  | .length => .settled (.count c.length) c
  | .isEmpty => .settled (.flag c.isEmpty) c
  | .weightedSize => .settled (.count c.published) c
  | .capacity => .settled (.count c.capacity) c
  | .setCapacity limit =>
    Answer.settled (Reply.answering Answer.ofCheck (c.setCapacity courier limit))
  | .clear => Answer.settled (Reply.answering .count (c.clear courier))
  | .cleanUp => Answer.settled (Reply.answering (fun _ => .done) (c.cleanUp courier))
  | .check => .settled (Answer.ofCheck (c.check.mapError Fault.toError)) c
  | .metrics => .settled (.metrics c.metrics) c
  | .describe => .settled (.text c.describe) c

end Call

def Suspended.resume (courier : Courier) (s : Suspended) (c : Cache) : Answer Step × Cache :=
  match s with
  | .insertion rest => Reply.answering .value (c.resumeInsert courier rest)
  | .conditional rest => Reply.answering .flag (c.resumeSwap courier rest)

def Call.run (courier : Courier) (call : Call) (c : Cache) : Answer Step × Cache :=
  (call.start courier c).finish (Suspended.resume courier) c

end BoundedCache
