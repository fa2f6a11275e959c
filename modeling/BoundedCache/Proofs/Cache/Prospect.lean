import BoundedCache.Proofs.Cache.Fidelity
import BoundedCache.Proofs.Cache.Quiescence
import BoundedCache.Proofs.Engine.Recency

namespace BoundedCache

/-- Nodes, store and settings of a cache, and the recency order of a cache with nothing pending. -/
structure Prospect where
  pool : Pool
  store : Store
  weigher : Weigher
  capacity : Nat
  listener : Option (Listener (List Op))
  touchOnUpdate : Bool
  order : List NodeId

namespace Prospect

/-- What an event of a call makes of the order, once it is replayed behind everything else. -/
def record (pr : Prospect) (ev : Event) : Prospect :=
  { pr with order := match ev.kind with
    | .read => toBack ev.node pr.order
    | .add => pr.order ++ [ev.node]
    | .update => if pr.touchOnUpdate then toBack ev.node pr.order else pr.order
    | .remove => pr.order.filter (· ≠ ev.node) }

def live (pr : Prospect) : List Entry := pr.pool.liveOf pr.store.entries

end Prospect

namespace Cache

variable {c c' : Cache} {hand : List Event} {event : Event} {call : Call} {answer : Answer Step}
  {id : NodeId} {last : Held} {b : Buffers} {i : Intent}

/-- What a cache will be once its buffers, and then the events in hand, are replayed. -/
def prospect (hand : List Event) (c : Cache) : Prospect where
  pool := c.engine.pool
  store := c.engine.store
  weigher := c.weigher
  capacity := c.capacity
  listener := c.relay.listener
  touchOnUpdate := c.engine.touchOnUpdate
  order := (c.engine.applyAll (c.engine.buffers.events ++ hand)).deque.order

/-- How much went wrong: entries evicted and reads dropped. -/
def harm (c : Cache) : Nat := c.counters.evictions + c.counters.droppedReads

/-- To answer does no harm. -/
theorem harm_tally (call : Call) (answer : Answer Step) (c : Cache) :
    (c.count (call.tally answer)).harm = c.harm := by
  obtain ⟨he, hd⟩ := call.tally_spares answer c.counters
  simp only [harm, count, he, hd]

theorem tracks_harm : Tracks fun c c' => c.harm ≤ c'.harm where
  same _ _ he hd := Nat.add_le_add (Nat.le_of_eq he.symm) hd
  trans := Nat.le_trans
  drained c := by
    simp only [harm, evictions_drained, droppedReads_drained]
    omega

theorem harm_le_deliver (hp : c.Proper Scope.calls.Allows) : c.harm ≤ c.deliver.2.harm := by
  obtain ⟨vs, h⟩ := relays_deliver hp
  have hevictions := h.evictions
  have hdrops := h.drops
  unfold harm
  omega

theorem lawful_harm : Lawful .calls deliver fun _ c c' => c.harm ≤ c'.harm :=
  tracks_harm.lawful (steady_deliver .calls) fun _ hp => harm_le_deliver hp

theorem harm_le_drain (hp : c.Proper Scope.calls.Allows) : c.harm ≤ (c.drain deliver).harm :=
  Nat.le_trans (tracks_harm.drained c) (harm_le_deliver ((Evolves.drained c).proper hp))

theorem harm_le_drains (hd : Drains deliver c c') (hp : c.Proper Scope.calls.Allows) :
    c.harm ≤ c'.harm :=
  hd.rel (R := fun c c' => c.harm ≤ c'.harm) (fun _ => Nat.le_refl _) (fun _ _ => Nat.le_trans)
    (fun _ hp => harm_le_drain hp) (steady_deliver .calls) hp

theorem harm_le_settled (hb : c.engine.buffers.recordOwn event = .ok b)
    (hp : c.Proper Scope.calls.Allows) : c.harm ≤ (c.settled deliver b).harm := by
  rcases settled_cases deliver b c with he | he
  · rw [he]
    exact Nat.le_refl _
  · rw [he]
    exact harm_le_drain ((Evolves.rebuffer hb).proper hp)

/-- A cache that covers everything, the events in hand included, and has nobody to notify. -/
structure Calm (hand : List Event) (c : Cache) : Prop where
  covered : c.Covered hand
  lone : c.engine.buffers.Lone
  ease : c.AtEase
  proper : c.Proper Scope.calls.Allows

namespace Calm

/-- Lock, counters and capacity play no part. -/
theorem of_eq (h : c.Calm hand) (he : c'.engine = c.engine) (hr : c'.relay = c.relay)
    (hw : c'.weigher = c.weigher) : c'.Calm hand where
  covered := h.covered.of_eq he hw
  lone := he ▸ h.lone
  ease := h.ease.of_eq hr
  proper := ⟨he ▸ h.proper.paired, fun l hl => h.proper.stocked l (hr ▸ hl)⟩

/-- A drain that does no harm has no victims, so nobody is told of anything. -/
theorem drain_eq (h : c.Calm hand) (hharm : (c.drain deliver).harm ≤ c.harm) :
    c.drain deliver = c.drained ∧ (c.engine.run c.capacity).1.victims = [] := by
  have hlater := harm_le_deliver ((Evolves.drained c).proper h.proper)
  have hdrained : c.drained.harm = c.harm + (c.engine.run c.capacity).1.victims.length := by
    simp only [harm, evictions_drained, droppedReads_drained]
    omega
  have hnone : (c.engine.run c.capacity).1.victims = [] := by
    rw [← List.length_eq_zero_iff]
    unfold drain at hharm
    omega
  have hqueue : c.drained.relay.queue = [] := by
    rw [relay_drained, hnone]
    exact h.ease.queue
  exact ⟨by rw [drain, deliver_of_queue_nil hqueue], hnone⟩

/-- A drain that does no harm changes nothing of what will be. -/
theorem drain (h : c.Calm hand) (hharm : (c.drain deliver).harm ≤ c.harm) :
    (c.drain deliver).Calm hand ∧ (c.drain deliver).prospect hand = c.prospect hand := by
  obtain ⟨heq, hnone⟩ := h.drain_eq hharm
  have hcovered := h.covered.drained.1
  have hbuffers := buffers_drained h.covered.sound
  have hevents : c.drained.engine.buffers.events = [] := by rw [hbuffers, Buffers.events_emptied]
  have hrelay : c.drained.relay = c.relay := by rw [relay_drained, hnone]; rfl
  rw [heq]
  constructor
  · exact ⟨hcovered, hbuffers ▸ .emptied _, h.ease.of_eq hrelay,
      (Evolves.drained c).proper h.proper⟩
  · -- What the replay leaves, and the eviction from it, which finds no live node.
    have hreplayed := h.covered.swap.replay h.covered.sound
    have hreplay := Engine.replay_eq c.engine h.covered.sound
    obtain ⟨d, hevict, hd, ho⟩ :=
      Engine.evictUpTo_of_no_victims (e := c.engine.replay.2) hreplayed.deque hnone
    have hengine : c.drained.engine = { c.engine.replay.2 with deque := d } :=
      (engine_drained c).trans hevict
    let evicted : Engine := { c.engine.replay.2 with deque := d }
    have hleft : (evicted.applyAll hand).deque.order.filter evicted.pool.alive =
        (c.engine.replay.2.applyAll hand).deque.order.filter evicted.pool.alive :=
      Engine.filter_order_applyAll _ hreplayed.deque hd rfl (fun _ _ _ => rfl) ho
    have hsettled := hreplayed.settle.filter_order
    have hsettled' := hcovered.accounted
    rw [hevents, List.append_nil, hengine] at hsettled'
    have hsame := hsettled'.settle.filter_order
    rw [Engine.pool_applyAll] at hsettled hsame
    rw [hsettled] at hleft
    have horder : (c.drained.engine.applyAll hand).deque.order =
        (c.engine.applyAll (c.engine.buffers.events ++ hand)).deque.order := by
      rw [hengine, ← hsame, hleft, hreplay, Engine.applyAll_append, Engine.applyAll_withBuffers]
    rw [prospect, prospect, hevents, List.nil_append, horder, hengine, hreplay]
    simp only [Engine.pool_applyAll, Engine.store_applyAll, Engine.touchOnUpdate_applyAll,
      weigher_drained, capacity_drained, listener_drained]

theorem drains (hd : Drains deliver c c') (h : c.Calm hand) (hharm : c'.harm ≤ c.harm) :
    c'.Calm hand ∧ c'.prospect hand = c.prospect hand := by
  induction hd with
  | none => exact ⟨h, rfl⟩
  | @more c c' _ hlater ih =>
    have hdrain := harm_le_drain h.proper
    have hrest : (c.drain deliver).harm ≤ c'.harm :=
      harm_le_drains hlater ((Evolves.drain (steady_deliver .calls) h.proper).proper h.proper)
    obtain ⟨h', hsame⟩ := h.drain (by omega)
    obtain ⟨hlast, hsame'⟩ := ih h' (by omega)
    exact ⟨hlast, hsame'.trans hsame⟩

/-- It makes no difference whether an event is in hand or in the buffer. -/
theorem record (h : c.Calm [event]) (hb : c.engine.buffers.recordOwn event = .ok b) :
    Calm [] { c with engine := { c.engine with buffers := b } } ∧
      prospect [] { c with engine := { c.engine with buffers := b } } = c.prospect [event] := by
  obtain ⟨hlone, hevents⟩ := h.lone.record hb
  refine ⟨⟨h.covered.record hb, hlone, h.ease.of_eq rfl, (Evolves.rebuffer hb).proper h.proper⟩, ?_⟩
  simp only [prospect, hevents, List.append_nil, Engine.applyAll_withBuffers]

/-- Nor does it whether a drain comes before or after. -/
theorem settled (h : c.Calm [event]) (hb : c.engine.buffers.recordOwn event = .ok b)
    (hharm : (c.settled deliver b).harm ≤ c.harm) :
    (c.settled deliver b).Calm [] ∧ (c.settled deliver b).prospect [] = c.prospect [event] := by
  obtain ⟨hrecorded, hsame⟩ := h.record hb
  rcases settled_cases deliver b c with he | he
  · rw [he]
    exact ⟨hrecorded, hsame⟩
  · rw [he] at hharm ⊢
    obtain ⟨h', hsame'⟩ := hrecorded.drain hharm
    exact ⟨h', hsame'.trans hsame⟩

/-- A writer that gets its event in without harm. -/
theorem recordWrite (h : c.Calm [event]) (hr : c.recordWrite deliver event = some c')
    (hharm : c'.harm ≤ c.harm) : c'.Calm [] ∧ c'.prospect [] = c.prospect [event] := by
  obtain ⟨ready, b, hd, hb, rfl⟩ := recordWithin_eq_some hr
  have hready := harm_le_drains hd h.proper
  have hp := (hd.evolves (steady_deliver .calls) h.proper).proper h.proper
  have hend := harm_le_settled hb hp
  obtain ⟨h', hsame⟩ := drains hd h (by omega)
  obtain ⟨hlast, hsame'⟩ := h'.settled hb (by omega)
  exact ⟨hlast, hsame'.trans hsame⟩

/-- A read of a live node, as long as it is in hand. -/
theorem read (h : c.Calm []) (hl : c.engine.pool.held id = some last) :
    c.Calm [⟨.read, id⟩] ∧ c.prospect [⟨.read, id⟩] = (c.prospect []).record ⟨.read, id⟩ := by
  have hacc : c.engine.Accounted c.engine.buffers.events := h.covered.accounted
  refine ⟨⟨⟨?_, h.covered.sound, h.covered.weighed⟩, h.lone, h.ease, h.proper⟩, ?_⟩
  · exact hacc.cons (Pool.lt_next_of_held hl) (by simp)
  · have hm : id ∈ (c.engine.applyAll c.engine.buffers.events).deque.order := by
      rw [hacc.settle.mem_order_iff, Engine.pool_applyAll, hl]
      rfl
    have horder := (Engine.order_apply hacc.settle.deque ⟨.read, id⟩).2
    rw [Event.reorder, if_pos ⟨by simp [Pool.alive, hl], hm⟩] at horder
    simp only [prospect, Prospect.record, List.append_nil, Engine.applyAll_append]
    exact congrArg _ horder

/-- A write, as long as its event is in hand. -/
theorem write (h : c.Calm []) (hw : c.Writes call answer event c') :
    c'.Calm [event] ∧ c'.prospect [event] =
      { c.prospect [] with pool := c'.engine.pool, store := c'.engine.store }.record event := by
  have hacc : c.engine.Accounted c.engine.buffers.events := h.covered.accounted
  have hcalm : c'.Calm [event] :=
    ⟨h.covered.write hw, by rw [hw.unrecorded.1]; exact h.lone, h.ease.of_eq hw.relay_eq,
      hw.evolves.proper h.proper⟩
  refine ⟨hcalm, ?_⟩
  cases hw with
  | replace _ _ _ hp =>
    have horder := hacc.order_update hp
    simp only [prospect, Prospect.record, List.append_nil, engine_count]
    exact congrArg _ horder
  | @insert key fresh s _ _ _ hs =>
    have horder := hacc.order_insert key fresh s
    simp only [prospect, Prospect.record, List.append_nil, engine_count]
    exact congrArg _ horder
  | @retire _ _ _ s _ _ hp hs =>
    have horder := hacc.order_retire hp s
    simp only [prospect, Prospect.record, List.append_nil, engine_count]
    exact congrArg _ horder

end Calm

/-- A clearing leaves nothing to come. -/
theorem Calm.clear (h : c.Calm []) :
    (deliver c.cleared.2).2.Calm [] ∧
      (deliver c.cleared.2).2.prospect [] =
        { c.prospect [] with
          pool := c.engine.pool.retireAll, store := c.engine.store.emptied, order := [] } ∧
      c.cleared.1 = (c.prospect []).live.length := by
  have hcleared := h.covered.cleared.1
  obtain ⟨hvoid, hbuffers⟩ := h.covered.swap.clear h.covered.sound
  have hpool := h.proper.paired.pool_clear
  have htouch := (Engine.Evolves.of_changes c.engine.changes_clear).touch
  have hcount := h.proper.paired.clear_count
  have hp := (Evolves.cleared c).proper h.proper
  have hevents : c.engine.clear.2.buffers.events = [] := by rw [hbuffers, Buffers.events_emptied]
  have hstore := hvoid.store_clear h.proper.paired.store.counted
  have horder : c.engine.clear.2.deque.order = [] := hvoid.linked.order_eq
  have hease : c.cleared.2.AtEase := h.ease.of_eq (by rw [cleared_eq])
  rw [deliver_of_queue_nil hease.queue]
  have hlone : c.engine.clear.2.buffers.Lone := by
    rw [hbuffers]
    exact .emptied _
  rw [cleared_eq] at hcleared hp hease ⊢
  generalize c.engine.clear = result at *
  refine ⟨⟨hcleared, hlone, hease, hp⟩, ?_, hcount⟩
  simp only [prospect, hevents, hpool, hstore, htouch, List.append_nil]
  exact congrArg _ horder

/-- A write of one cache is a write of every cache that a call cannot tell from it. -/
theorem Writes.of_alike {p : Pool} {s : Store} (h : c.Alike c')
    (hw : c.Writes call answer event (Intent.written call answer p s c)) :
    c'.Writes call answer event (Intent.written call answer p s c') := by
  generalize hn : Intent.written call answer p s c = next at hw
  have hpool : p = next.engine.pool := by rw [← hn]; rfl
  have hstore : s = next.engine.store := by rw [← hn]; rfl
  subst hpool hstore
  cases hw with
  | replace gain loss weighed pool =>
    rw [← h.pool] at gain loss pool
    rw [← h.weigher] at weighed
    rw [engine_count, ← h.store]
    exact .replace gain loss weighed pool
  | insert gain loss weighed store =>
    rw [← h.pool, ← h.store] at store
    rw [← h.weigher] at weighed
    rw [engine_count, ← h.pool]
    exact .insert gain loss weighed store
  | retire gain loss pool store =>
    rw [← h.pool] at loss pool
    rw [← h.pool, ← h.store] at store
    exact .retire gain loss pool store

end Cache

open Cache

namespace Intent

variable {c c' : Cache} {call : Call} {answer : Answer Step} {i : Intent}

theorem Suits.of_alike (h : c.Alike c') (hs : i.Suits c call) : i.Suits c' call := by
  cases hs with
  | idle gain loss idles => exact .idle gain loss idles
  | look looks view => exact .look looks view
  | read gain loss alive touches => exact .read gain loss (h.pool ▸ alive) touches
  | write write => exact .write (write.of_alike h)
  | resize capacity => exact .resize capacity
  | tidy => exact .tidy
  | empty => exact .empty

def forecast (i : Intent) (pr : Prospect) : Prospect :=
  match i with
  | .idle _ | .look _ | .tidy => pr
  | .read _ id => pr.record ⟨.read, id⟩
  | .write _ event pool store => { pr with pool, store }.record event
  | .resize capacity => { pr with capacity }
  | .empty => { pr with pool := pr.pool.retireAll, store := pr.store.emptied, order := [] }

def reply (i : Intent) (pr : Prospect) : Option (Answer Step) :=
  match i with
  | .idle answer | .read answer _ | .write answer _ _ _ => some answer
  | .look _ => none
  | .resize _ | .tidy => some .done
  | .empty => some (.count pr.live.length)

/-- A call that returns and does no harm answers, and changes what will be, as what will be and its
intent have it. Whether the lock was held meanwhile makes no difference. -/
theorem Suits.forecast (hs : i.Suits c call) (h : c.Calm [])
    (hreturned : Deed.returned ⟨.call call, (i.run deliver call c).1⟩ = true)
    (hharm : (i.run deliver call c).2.harm ≤ c.harm) :
    (i.run deliver call c).2.Calm [] ∧
      (i.run deliver call c).2.prospect [] = i.forecast (c.prospect []) ∧
      ∀ answer ∈ i.reply (c.prospect []), (i.run deliver call c).1 = answer := by
  cases hs with
  | idle => exact ⟨h.of_eq rfl rfl rfl, rfl, by simp [reply, run]⟩
  | look => exact ⟨h, rfl, by simp [reply]⟩
  | @read _ answer id last _ _ hl =>
    have hcount : (c.count (call.tally answer)).Calm [] := h.of_eq rfl rfl rfl
    obtain ⟨hhand, hread⟩ := hcount.read hl
    have hsame := harm_tally call answer c
    simp only [run, recordRead] at hharm ⊢
    cases hb : (c.count (call.tally answer)).engine.buffers.recordOwn ⟨.read, id⟩ with
    | error back =>
      -- A dropped read is harm.
      rw [hb] at hharm
      have hmore : ((c.count (call.tally answer)).count fun n =>
          { n with droppedReads := n.droppedReads + 1 }).harm =
          (c.count (call.tally answer)).harm + 1 := rfl
      simp only [hmore] at hharm
      omega
    | ok b =>
      obtain ⟨hcalm, hprospect⟩ := hhand.record hb
      exact ⟨hcalm, hprospect.trans hread, by simp [reply]⟩
  | @write _ answer event pool store hw =>
    obtain ⟨hhand, hwritten⟩ := h.write hw
    have hsame : (written call answer pool store c).harm = c.harm := harm_tally call answer _
    simp only [run] at hreturned hharm ⊢
    cases hr : (written call answer pool store c).recordWrite deliver event with
    | none => simp [hr, Deed.returned] at hreturned
    | some c' =>
      rw [hr] at hharm
      obtain ⟨hcalm, hprospect⟩ := hhand.recordWrite hr (by simpa [hsame] using hharm)
      exact ⟨hcalm, hprospect.trans hwritten, by simp [reply]⟩
  | resize capacity =>
    have hcap : Calm [] { c with capacity } := h.of_eq rfl rfl rfl
    simp only [run] at hreturned hharm ⊢
    split at hreturned
    · cases hreturned
    · rename_i hfree
      rw [if_neg hfree] at hharm ⊢
      obtain ⟨hcalm, hprospect⟩ := hcap.drain hharm
      exact ⟨hcalm, hprospect, by simp [reply]⟩
  | tidy =>
    simp only [run] at hreturned hharm ⊢
    split at hreturned
    · cases hreturned
    · rename_i hfree
      rw [if_neg hfree] at hharm ⊢
      obtain ⟨hcalm, hprospect⟩ := h.drain hharm
      exact ⟨hcalm, hprospect, by simp [reply]⟩
  | empty =>
    obtain ⟨hcalm, hprospect, hcount⟩ := h.clear
    simp only [run] at hreturned hharm ⊢
    split at hreturned
    · cases hreturned
    · rename_i hfree
      rw [if_neg hfree]
      exact ⟨hcalm, hprospect, by simp [reply, hcount]⟩

end Intent

end BoundedCache
