import BoundedCache.Proofs.Cache.Deliver

namespace BoundedCache

namespace Cache

structure Moves (c c' : Cache) : Prop where
  engine : Engine.Changes c.engine c'.engine
  weigher : c'.weigher = c.weigher

/-- A relation that holds across every insertion holds across a row of them, however far it gets. -/
theorem fill_rel {R : Cache → Cache → Prop} {courier : Courier} (refl : ∀ c, R c c)
    (trans : ∀ {c c' c'' : Cache}, R c c' → R c' c'' → R c c'') (f : Filling)
    (hput : ∀ i c, R c (c.put courier (f.key i) (f.value i)).2)
    (numbers : List Nat) (replaced : Nat) (c : Cache) :
    R c (c.fill courier f numbers replaced).2 := by
  induction numbers generalizing replaced c with
  | nil => exact refl c
  | cons i rest ih =>
    have hfirst := hput i c
    unfold Cache.fill
    rcases hr : c.put courier (f.key i) (f.value i) with ⟨reply, after⟩
    rw [hr] at hfirst
    cases reply with
    | returned previous => exact trans hfirst (ih _ _)
    | refused message => exact hfirst
    | blocked => exact hfirst

/-- What operations consist of, given what is done where notifications have to be delivered. A
`change` leaves the buffers alone; what touches them has a case of its own. -/
inductive Course (courier : Courier) : Cache → Cache → Prop where
  | refl (c : Cache) : Course courier c c
  | trans {c c' c'' : Cache} (first : Course courier c c') (later : Course courier c' c'') :
      Course courier c c''
  | change {c : Cache} {e : Engine} (change : Engine.Change c.engine e)
      (buffers : e.buffers = c.engine.buffers) : Course courier c { c with engine := e }
  | record {c : Cache} {b : Buffers} {i : Nat} {event : Event}
      (record : c.engine.buffers.record i event = .ok b) :
      Course courier c { c with engine := { c.engine with buffers := b } }
  | count (c : Cache) (f : Counters → Counters) : Course courier c (c.count f)
  | recap (c : Cache) (capacity : Nat) : Course courier c { c with capacity }
  | enqueue (c : Cache) (entry : Entry) :
      Course courier c { c with relay := c.relay.enqueue entry }
  | drained (c : Cache) : Course courier c c.drained
  | cleared (c : Cache) : Course courier c c.cleared.2
  | deliver (c : Cache) : Course courier c (courier c).2
  | underLock {ops : Cache → List Step × Cache} (course : ∀ c, Course courier c (ops c).2)
      (c : Cache) : Course courier c (c.underLock ops).2
  | discard {ops : Cache → List Step × Cache} (course : ∀ c, Course courier c (ops c).2)
      (c : Cache) : Course courier c (c.discard ops).2

end Cache

def Courier.Moving (courier : Courier) : Prop := ∀ c : Cache, c.Moves (courier c).2

namespace Cache

variable {c c' c'' : Cache} {courier : Courier}

namespace Moves

theorem refl (c : Cache) : c.Moves c := ⟨.refl, rfl⟩

theorem trans (h : c.Moves c') (h' : c'.Moves c'') : c.Moves c'' :=
  ⟨h.engine.trans h'.engine, h'.weigher.trans h.weigher⟩

/-- Only engine and weigher matter. -/
theorem of_eq (he : c'.engine = c.engine) (hw : c'.weigher = c.weigher) : c.Moves c' :=
  ⟨he ▸ .refl, hw⟩

theorem change {e : Engine} (h : Engine.Change c.engine e) : c.Moves { c with engine := e } :=
  ⟨.single h, rfl⟩

theorem drained (c : Cache) : c.Moves c.drained := by
  refine ⟨?_, weigher_drained c⟩
  rw [engine_drained]
  exact c.engine.changes_run c.capacity

theorem cleared (c : Cache) : c.Moves c.cleared.2 := by
  rw [cleared_eq]
  exact ⟨c.engine.changes_clear, rfl⟩

variable {ops : Cache → List Step × Cache}

theorem underLock (hops : ∀ c : Cache, c.Moves (ops c).2) (c : Cache) :
    c.Moves (c.underLock ops).2 := by
  have hlock : c.Moves { c with lockHeld := true } := of_eq rfl rfl
  exact (hlock.trans (hops _)).trans (of_eq rfl rfl)

theorem discard (hops : ∀ c : Cache, c.Moves (ops c).2) (c : Cache) :
    c.Moves (c.discard ops).2 := by
  refine Buffered.drain_rel (W := Cache × Option (List Step)) (R := fun w w' => w.1.Moves w'.1)
    (fun w => refl w.1) (fun h h' => h.trans h')
    (fun w b hb => change (.rebuffer b hb)) (fun ev w => ?_) (c, none)
  obtain ⟨c, ran⟩ := w
  cases ran with
  | none => exact hops c
  | some steps => exact refl c

end Moves

/-- Each step of a course is a sequence of changes. -/
theorem Course.moves (hc : courier.Moving) (h : Course courier c c') : c.Moves c' := by
  induction h with
  | refl c => exact .refl c
  | trans _ _ first later => exact first.trans later
  | change change _ => exact .change change
  | record record => exact .change (.record record)
  | count | recap | enqueue => exact .of_eq rfl rfl
  | drained c => exact .drained c
  | cleared c => exact .cleared c
  | deliver c => exact hc c
  | underLock _ c ops => exact .underLock ops c
  | discard _ c ops => exact .discard ops c

end Cache

/-- A call up to its gap has taken the cache along if it has ended, and has seen something good if
it has not. -/
inductive Progress.Coursed {σ ρ : Type} (courier : Courier) (c : Cache) (sees : σ → Prop) :
    Progress σ ρ → Prop where
  | settled {reply : ρ} {c' : Cache} (course : Cache.Course courier c c') :
      Coursed courier c sees (.settled reply c')
  | gap {rest : σ} (good : sees rest) : Coursed courier c sees (.gap rest)

namespace Progress.Coursed

variable {σ ρ α : Type} {courier : Courier} {c : Cache} {sees : σ → Prop}

theorem answering {p : Progress σ (Reply α)} (h : p.Coursed courier c sees) (f : α → Answer Step)
    {g : σ → Suspended} {sees' : Suspended → Prop} (hg : ∀ rest, sees rest → sees' (g rest)) :
    (p.answering f g).Coursed courier c sees' := by
  cases h with
  | settled course => exact .settled course
  | gap good => exact .gap (hg _ good)

/-- A call that goes on at once takes the cache along if the rest of it does. -/
theorem finish {p : Progress σ ρ} (h : p.Coursed courier c sees) {resume : σ → Cache → ρ × Cache}
    (hr : ∀ rest, sees rest → Cache.Course courier c (resume rest c).2) :
    Cache.Course courier c (p.finish resume c).2 := by
  cases h with
  | settled course => exact course
  | gap good => exact hr _ good

end Progress.Coursed

namespace Cache

variable {c c' c'' : Cache} {courier : Courier} {event : Event} {key : Key} {id : NodeId}

namespace Course

theorem recordRead (c : Cache) (id : NodeId) : Course courier c (c.recordRead id) := by
  unfold Cache.recordRead
  split
  · exact record ‹_›
  · exact count c _

theorem drain (c : Cache) : Course courier c (c.drain courier) := (drained c).trans (deliver _)

theorem recordWrite (h : c.recordWrite courier event = some c') :
    Course courier c c' := by
  obtain ⟨ready, b, hd, hb, rfl⟩ := recordWithin_eq_some h
  have hready : Course courier c ready := hd.keeps (fun c' _ h => h.trans (drain c')) (refl c)
  have hrecorded : Course courier ready { ready with engine := { ready.engine with buffers := b } } :=
    record hb
  rcases settled_cases courier b ready with he | he
  · rw [he]
    exact hready.trans hrecorded
  · rw [he]
    exact hready.trans (hrecorded.trans (drain _))

/-- A write that is counted and then gets its event in, or not. -/
theorem finishWrite {α : Type} (f : Counters → Counters) (event : Event)
    (result : α) (c : Cache) : Course courier c ((c.count f).finishWrite courier event result).2 := by
  have hcount : Course courier c (c.count f) := count c f
  unfold Cache.finishWrite
  cases h : (c.count f).recordWrite courier event with
  | some c' => exact hcount.trans (recordWrite h)
  | none => exact hcount

theorem overwrite {fresh : Held} {r : Reply (Option Value) × Cache}
    (h : c.overwrite courier id fresh = some r) : Course courier c r.2 := by
  obtain ⟨⟨last, p⟩, hr, rfl⟩ := Option.map_eq_some_iff.mp h
  have hwrite : Course courier c { c with engine := { c.engine with pool := p } } :=
    change (.rewrite (Pool.rewrites_of_replace hr)) rfl
  exact hwrite.trans (finishWrite _ _ _ _)

theorem meetLive {onLive : OnLive} {fresh : Held} {sight : Sight}
    {r : Reply (Option Value) × Cache} (h : c.meetLive courier onLive fresh id sight = some r) :
    Course courier c r.2 := by
  cases onLive with
  | overwrite => exact overwrite h
  | keep =>
    cases h
    exact recordRead c id

theorem mapFresh? {fresh : Held} {vacancy : Vacancy} (h : c.mapFresh? key fresh vacancy = some c') :
    Course courier c c' := by
  obtain ⟨s, hs, rfl⟩ := Option.map_eq_some_iff.mp h
  cases vacancy with
  | unmapped =>
    cases ht : c.engine.store.insertIfAbsent key c.engine.pool.next with
    | ok t =>
      simp only [ht, Except.toOption, Option.some.injEq] at hs
      exact hs ▸ change (.insert ht) rfl
    | error resident => simp [ht, Except.toOption] at hs
  | retired id => exact change (.supersede hs) rfl

theorem occupy {i : Insertion} {r : Reply (Option Value) × Cache}
    (h : c.occupy courier i = some r) : Course courier c r.2 := by
  obtain ⟨next, hm, rfl⟩ := Option.map_eq_some_iff.mp h
  exact (mapFresh? hm).trans (finishWrite _ _ _ _)

theorem seek (onLive : OnLive) (key : Key) (fresh : Held) (c : Cache) :
    (c.seek courier onLive key fresh).Coursed courier c fun _ => True := by
  unfold Cache.seek
  split
  · exact .gap trivial
  · exact .gap trivial
  · rename_i id sight _
    refine .settled ?_
    cases h : c.meetLive courier onLive fresh id sight with
    | none => exact refl c
    | some r => exact meetLive h

theorem startInsert (onLive : OnLive) (key : Key) (value : Value)
    (c : Cache) : (c.startInsert courier onLive key value).Coursed courier c fun _ => True := by
  unfold Cache.startInsert
  split
  · exact .settled (refl c)
  · exact seek onLive key _ c

theorem resumeInsert (i : Insertion) (c : Cache) :
    Course courier c (c.resumeInsert courier i).2 := by
  have hoccupy (i : Insertion) (other : Reply (Option Value) × Cache)
      (ho : Course courier c other.2) : Course courier c ((c.occupy courier i).getD other).2 := by
    cases h : c.occupy courier i with
    | none => exact ho
    | some r => exact occupy h
  exact hoccupy i _ ((seek ..).finish fun i _ => hoccupy i _ (refl c))

theorem startSwap (key : Key) (id : NodeId) (expected : Value) (next : Option Held) (c : Cache) :
    (c.startSwap key id expected next).Coursed courier c fun w =>
      c.engine.pool.Saw w.node w.seen := by
  unfold Cache.startSwap
  cases hl : c.engine.pool.load id with
  | none => exact .settled (refl c)
  | some seen => exact .gap (Pool.saw_of_load hl)

theorem startRemoveIf (key : Key) (expected : Value) (c : Cache) :
    (c.startRemoveIf key expected).Coursed courier c fun w => c.engine.pool.Saw w.node w.seen := by
  unfold Cache.startRemoveIf
  split
  · exact .settled (refl c)
  · exact startSwap ..

theorem startReplaceIf (key : Key) (expected value : Value) (c : Cache) :
    (c.startReplaceIf key expected value).Coursed courier c fun w =>
      c.engine.pool.Saw w.node w.seen := by
  unfold Cache.startReplaceIf
  split
  · exact .settled (refl c)
  · split
    · exact .settled (refl c)
    · exact startSwap ..

theorem resumeSwap {w : Conditional}
    (hw : c.engine.pool.Saw w.node w.seen) : Course courier c (c.resumeSwap courier w).2 := by
  unfold Cache.resumeSwap
  cases hs : c.engine.pool.swapSeen w.node w.seen (· == w.expected) w.next with
  | error refusal => exact refl c
  | ok result =>
    obtain ⟨last, p⟩ := result
    have hwrite : Course courier c { c with engine := { c.engine with pool := p } } :=
      change (.rewrite (Pool.rewrites_of_swapSeen hw hs).1) rfl
    cases w.next with
    | some fresh => exact hwrite.trans (finishWrite _ _ _ _)
    | none =>
      have hunmap : Course courier { c with engine := { c.engine with pool := p } }
          { c with engine := { c.engine with
            pool := p, store := (c.engine.store.removeIfMatch w.key w.node).getD c.engine.store } } := by
        cases ht : c.engine.store.removeIfMatch w.key w.node with
        | none => exact refl _
        | some s => exact change (.unmap ht) rfl
      exact hwrite.trans (hunmap.trans (finishWrite _ _ _ _))

theorem remove (key : Key) (c : Cache) : Course courier c (c.remove courier key).2 := by
  unfold Cache.remove
  cases hr : c.engine.store.remove key with
  | none => exact refl c
  | some result =>
    obtain ⟨id, s⟩ := result
    have hunmap : Course courier c { c with engine := { c.engine with store := s } } :=
      change (.unmap (Store.remove_eq_some_iff.mp hr)) rfl
    dsimp only
    cases hp : c.engine.pool.retire id with
    | none => exact hunmap
    | some result =>
      obtain ⟨last, p⟩ := result
      have hretire : Course courier { c with engine := { c.engine with store := s } }
          { c with engine := { c.engine with store := s, pool := p } } :=
        change (.rewrite (Pool.rewrites_of_retire hp)) rfl
      exact hunmap.trans (hretire.trans (finishWrite _ _ _ _))

theorem replace (key : Key) (value : Value) (c : Cache) :
    Course courier c (c.replace courier key value).2 := by
  unfold Cache.replace
  cases c.engine.store.get? key with
  | none => exact refl c
  | some id =>
    dsimp only
    cases c.weigh value with
    | error message => exact refl c
    | ok fresh =>
      dsimp only
      cases h : c.overwrite courier id fresh with
      | none => exact refl c
      | some r => exact overwrite h

theorem get (key : Key) (c : Cache) : Course courier c (c.get key).2 := by
  have hcount (f : Counters → Counters) : Course courier c (c.count f) := count c f
  unfold Cache.get
  cases c.lookup key with
  | none => exact hcount fun n => { n with misses := n.misses + 1 }
  | some found => exact (hcount fun n => { n with hits := n.hits + 1 }).trans (recordRead _ _)

theorem setCapacity (capacity : Nat) (c : Cache) :
    Course courier c (c.setCapacity courier capacity).2 := by
  have hcap : Course courier c { c with capacity } := recap c capacity
  unfold Cache.setCapacity
  split
  · exact refl c
  · split
    · exact refl c
    · exact hcap.trans (drain _)

theorem clear (c : Cache) : Course courier c (c.clear courier).2 := by
  unfold Cache.clear
  split
  · exact refl c
  · exact (cleared c).trans (deliver _)

theorem cleanUp (c : Cache) : Course courier c (c.cleanUp courier).2 := by
  unfold Cache.cleanUp
  split
  · exact refl c
  · exact drain c

end Course

end Cache

def Suspended.Sees (c : Cache) : Suspended → Prop
  | .insertion _ => True
  | .conditional w => c.engine.pool.Saw w.node w.seen

namespace Cache

variable {c c' : Cache} {courier : Courier} {s : Suspended}

/-- Nodes keep their keys, a retired node stays retired, and mapped nodes were made. -/
theorem Moves.evolves (h : c.Moves c') : c.engine.Evolves c'.engine :=
  .of_changes h.engine

theorem Moves.sees (h : c.Moves c') (hs : s.Sees c) : s.Sees c' := by
  cases s with
  | insertion i => exact hs
  | conditional w => exact Pool.Saw.grows hs h.evolves.pool

end Cache

open Cache

variable {c : Cache} {courier : Courier} {s : Suspended}

theorem Call.start_course (call : Call) (c : Cache) :
    (call.start courier c).Coursed courier c (·.Sees c) := by
  cases call with
  | put key value => exact (Course.startInsert .overwrite key value c).answering _ fun _ h => h
  | putIfAbsent key value => exact (Course.startInsert .keep key value c).answering _ fun _ h => h
  | removeIf key expected => exact (Course.startRemoveIf key expected c).answering _ fun _ h => h
  | replaceIf key expected value =>
    exact (Course.startReplaceIf key expected value c).answering _ fun _ h => h
  | get key => exact .settled (.get key c)
  | replace key value => exact .settled (.replace key value c)
  | remove key => exact .settled (.remove key c)
  | setCapacity capacity => exact .settled (.setCapacity capacity c)
  | clear => exact .settled (.clear c)
  | cleanUp => exact .settled (.cleanUp c)
  | getQuietly | contains | length | isEmpty | weightedSize | capacity | check | metrics | describe =>
    exact .settled (.refl c)

theorem Suspended.resume_course (h : s.Sees c) : Course courier c (s.resume courier c).2 := by
  cases s with
  | insertion i => exact .resumeInsert i c
  | conditional w => exact .resumeSwap h

theorem Call.run_course (call : Call) (c : Cache) : Course courier c (call.run courier c).2 :=
  (call.start_course c).finish fun _ hs => Suspended.resume_course hs

namespace Cache

namespace Course

theorem mapRaw (key : Key) (value : Value) (c : Cache) :
    Course courier c (c.mapRaw key value).2 := by
  unfold Cache.mapRaw
  cases c.weigh value with
  | error message => exact refl c
  | ok fresh =>
    dsimp only
    cases ht : c.engine.store.insertIfAbsent key c.engine.pool.next with
    | error resident => exact refl c
    | ok s => exact change (.insert ht) rfl

theorem remapRaw (key : Key) (value : Value) (c : Cache) :
    Course courier c (c.remapRaw key value).2 := by
  unfold Cache.remapRaw
  dsimp only
  cases c.engine.store.get? key with
  | none => exact refl c
  | some id =>
    dsimp only
    cases c.weigh value with
    | error message => exact refl c
    | ok fresh =>
      dsimp only
      cases ht : c.engine.store.replaceIfMatch key id c.engine.pool.next with
      | none => exact refl c
      | some s => exact change (.supersede ht) rfl

theorem retireRaw (id : NodeId) (c : Cache) : Course courier c (c.retireRaw id).2 := by
  unfold Cache.retireRaw
  split
  · exact refl c
  · exact change (.rewrite (Pool.rewrites_of_retire ‹_›)) rfl

theorem recordRaw (id : NodeId) (stripe : Nat) (kind : EventKind) (c : Cache) :
    Course courier c (c.recordRaw id stripe kind).2 := by
  unfold Cache.recordRaw
  dsimp only
  split
  · exact refl c
  · exact record ‹_›

theorem applyRaw (id : NodeId) (kind : EventKind) (c : Cache) :
    Course courier c (c.applyRaw id kind).2 := by
  unfold Cache.applyRaw
  split
  · exact refl c
  · exact change (.apply ⟨kind, id⟩) (Engine.buffers_apply c.engine _)

theorem linkWeightRaw (id : NodeId) (weight : Weight) (c : Cache) :
    Course courier c (c.linkWeightRaw id weight).2 := by
  unfold Cache.linkWeightRaw
  split
  · exact refl c
  · split
    · exact refl c
    · exact change (.weigh ‹_› weight) rfl

theorem onNode {f : NodeId → Cache → Answer Step × Cache} (hf : ∀ id, Course courier c (f id c).2)
    (key : Key) : Course courier c (c.onNode key f).2 := by
  unfold Cache.onNode
  split
  · exact refl c
  · exact hf _

theorem probe (p : Probe) (c : Cache) : Course courier c (c.probe courier p).2 := by
  cases p with
  | order | entries | pending | statuses => exact refl c
  | unmap key =>
    simp only [Cache.probe]
    cases hr : c.engine.store.remove key with
    | none => exact refl c
    | some result => exact change (.unmap (Store.remove_eq_some_iff.mp hr)) rfl
  | map key value => exact mapRaw key value c
  | remap key value => exact remapRaw key value c
  | rawCapacity capacity => exact recap c capacity
  | notify key value => exact enqueue c ⟨key, value⟩
  | deliver => exact deliver c
  | retire key => exact onNode (fun id => retireRaw id c) key
  | node key =>
    refine onNode (fun id => ?_) key
    split <;> exact refl c
  | record key stripe kind => exact onNode (fun id => recordRaw id stripe kind c) key
  | apply key kind => exact onNode (fun id => applyRaw id kind c) key
  | linkWeight key weight => exact onNode (fun id => linkWeightRaw id weight c) key

theorem fill (f : Filling) (numbers : List Nat) (replaced : Nat) (c : Cache) :
    Course courier c (c.fill courier f numbers replaced).2 := by
  refine fill_rel refl trans f (fun i c => ?_) numbers replaced c
  exact (startInsert .overwrite (f.key i) (f.value i) c).finish fun i _ => resumeInsert i c

variable {ops : Cache → List Step × Cache}

theorem repeated (hops : ∀ c : Cache, Course courier c (ops c).2) (times : Nat) (c : Cache) :
    Course courier c (Cache.repeated ops times c).2 := by
  fun_induction Cache.repeated ops times c with
  | case1 c => exact refl c
  | case2 c => exact hops c
  | case3 n c ih => exact (hops c).trans ih

end Course

end Cache

mutual

/-- An operation of any kind consists of such steps. -/
theorem Op.run_course (hc : courier.Moving) :
    ∀ (op : Op) (c : Cache), Course courier c (op.run courier c).2
  | .call request, c => request.run_course c
  | .probe request, c => .probe request c
  | .interrupted request meanwhile, c => by
    have hstart : (request.start courier c).Coursed courier c (·.Sees c) := request.start_course c
    unfold Op.run
    cases hcall : request.start courier c with
    | settled answer after =>
      rw [hcall] at hstart
      cases hstart with
      | settled course => exact course
    | gap s =>
      rw [hcall] at hstart
      cases hstart with
      | gap good =>
        have hgap := Op.runAll_course hc meanwhile c
        exact hgap.trans (Suspended.resume_course ((hgap.moves hc).sees good))
  | .hold ops, c => .underLock (Op.runAll_course hc ops) c
  | .contended ops, c => Op.runAll_course hc ops c
  | .discard ops, c => .discard (Op.runAll_course hc ops) c
  | .repeated times ops, c => .repeated (Op.runAll_course hc ops) times c
  | .fill row, c => .fill row row.numbers 0 c

/-- So do operations that run one after the other. -/
theorem Op.runAll_course (hc : courier.Moving) :
    ∀ (ops : List Op) (c : Cache), Course courier c (Op.runAll courier ops c).2
  | [], c => .refl c
  | op :: rest, c => (Op.run_course hc op c).trans (Op.runAll_course hc rest _)

end

theorem Op.run_moves (hc : courier.Moving) (op : Op) (c : Cache) : c.Moves (op.run courier c).2 :=
  (op.run_course hc c).moves hc

theorem Op.runAll_moves (hc : courier.Moving) (ops : List Op) (c : Cache) :
    c.Moves (Op.runAll courier ops c).2 :=
  (Op.runAll_course hc ops c).moves hc

end BoundedCache
