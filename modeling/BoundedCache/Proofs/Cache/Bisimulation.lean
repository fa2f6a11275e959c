import BoundedCache.Proofs.Cache.Rounds

namespace BoundedCache

structure Abreast {α : Type} (S : α → α → Prop) (R : Cache → Cache → Prop) (p p' : α × Cache) :
    Prop where
  report : S p.1 p'.1
  cache : R p.2 p'.2

/-- A relation between caches, each with a courier of its own, that nothing which operations do can
break. Two related caches have in common all but the relay, and what shows of the relay. -/
structure Cache.Bisimulation (R : Cache → Cache → Prop) (courier courier' : Courier) : Prop where
  same : ∀ {c c' : Cache}, R c c' → ∃ r, c' = { c with relay := r }
  revise : ∀ {c d : Cache} {r : Relay (Listener (List Op)) (List Step)},
    R c { c with relay := r } → d.relay = c.relay → d.weigher = c.weigher →
      R d { d with relay := r }
  enqueue : ∀ {c c' : Cache} (e : Entry), R c c' →
    R { c with relay := c.relay.enqueue e } { c' with relay := c'.relay.enqueue e }
  queue : ∀ {c c' : Cache}, R c c' → c'.relay.queue = c.relay.queue
  failures : ∀ {c c' : Cache}, R c c' → c'.relay.failures = c.relay.failures
  scripts : ∀ {c c' : Cache}, R c c' → c'.scriptsLeft = c.scriptsLeft
  deliver : ∀ {c c' : Cache}, R c c' → Abreast Eq R (courier c) (courier' c')

inductive Progress.Abreast {σ ρ : Type} (R : Cache → Cache → Prop) :
    Progress σ ρ → Progress σ ρ → Prop where
  | settled {reply : ρ} {c c' : Cache} (cache : R c c') :
      Abreast R (.settled reply c) (.settled reply c')
  | gap (rest : σ) : Abreast R (.gap rest) (.gap rest)

variable {R : Cache → Cache → Prop} {c c' : Cache} {courier courier' : Courier}

namespace Progress.Abreast

variable {σ ρ α : Type}

theorem answering {p p' : Progress σ (Reply α)} (h : p.Abreast R p') (f : α → Answer Step)
    (g : σ → Suspended) : (p.answering f g).Abreast R (p'.answering f g) := by
  cases h with
  | settled cache => exact .settled cache
  | gap rest => exact .gap (g rest)

theorem finish {p p' : Progress σ ρ} (h : p.Abreast R p') {resume resume' : σ → Cache → ρ × Cache}
    (hr : ∀ rest, BoundedCache.Abreast Eq R (resume rest c) (resume' rest c')) :
    BoundedCache.Abreast Eq R (p.finish resume c) (p'.finish resume' c') := by
  cases h with
  | settled cache => exact ⟨rfl, cache⟩
  | gap rest => exact hr rest

end Progress.Abreast

namespace Abreast

/-- What is made of the first part is the same if that is. -/
theorem answering {α : Type} {r r' : Reply α × Cache} (h : Abreast Eq R r r')
    (f : α → Answer Step) : Abreast Eq R (Reply.answering f r) (Reply.answering f r') :=
  ⟨congrArg (·.answer f) h.report, h.cache⟩

theorem settled {r r' : Answer Step × Cache} (h : Abreast Eq R r r') :
    (Answer.settled r).Abreast R (Answer.settled r') := by
  obtain ⟨answer, after⟩ := r
  obtain ⟨answer', after'⟩ := r'
  cases h.report
  exact .settled h.cache

/-- An attempt that may fail, with what is done then. -/
theorem getD {α : Type} {o o' : Option (α × Cache)} {r r' : α × Cache}
    (h : Option.Rel (Abreast Eq R) o o') (hr : Abreast Eq R r r') :
    Abreast Eq R (o.getD r) (o'.getD r') := by
  cases h with
  | some h => exact h
  | none => exact hr

end Abreast

open Cache

section

variable (B : Bisimulation R courier courier')

include B

namespace Cache.Bisimulation

theorem recordRead (h : R c c') (id : NodeId) : R (c.recordRead id) (c'.recordRead id) := by
  obtain ⟨r, rfl⟩ := B.same h
  unfold Cache.recordRead
  dsimp only
  split <;> exact B.revise h rfl rfl

theorem get (h : R c c') (key : Key) : Abreast Eq R (c.get key) (c'.get key) := by
  obtain ⟨r, rfl⟩ := B.same h
  have hsight : ({ c with relay := r } : Cache).sight key = c.sight key := rfl
  unfold Cache.get lookup
  rw [hsight]
  cases c.sight key with
  | live id seen =>
    have hcount : R (c.count fun n => { n with hits := n.hits + 1 })
        (({ c with relay := r } : Cache).count fun n => { n with hits := n.hits + 1 }) :=
      B.revise h rfl rfl
    exact ⟨rfl, B.recordRead hcount id⟩
  | unmapped | retired => exact ⟨rfl, B.revise h rfl rfl⟩

theorem startSwap (h : R c c') (key : Key) (id : NodeId) (expected : Value) (next : Option Held) :
    (c.startSwap key id expected next).Abreast R (c'.startSwap key id expected next) := by
  obtain ⟨r, rfl⟩ := B.same h
  unfold Cache.startSwap
  dsimp only
  split
  · exact .settled h
  · exact .gap _

theorem startRemoveIf (h : R c c') (key : Key) (expected : Value) :
    (c.startRemoveIf key expected).Abreast R (c'.startRemoveIf key expected) := by
  obtain ⟨r, rfl⟩ := B.same h
  unfold Cache.startRemoveIf
  dsimp only
  split
  · exact .settled h
  · exact B.startSwap h ..

theorem startReplaceIf (h : R c c') (key : Key) (expected value : Value) :
    (c.startReplaceIf key expected value).Abreast R (c'.startReplaceIf key expected value) := by
  obtain ⟨r, rfl⟩ := B.same h
  have hweigh : ({ c with relay := r } : Cache).weigh value = c.weigh value := rfl
  unfold Cache.startReplaceIf
  rw [hweigh]
  dsimp only
  split
  · exact .settled h
  · split
    · exact .settled h
    · exact B.startSwap h ..

theorem onNode {f : NodeId → Cache → Answer Step × Cache} (h : R c c') (key : Key)
    (hf : ∀ id, Abreast Eq R (f id c) (f id c')) :
    Abreast Eq R (c.onNode key f) (c'.onNode key f) := by
  obtain ⟨r, rfl⟩ := B.same h
  unfold Cache.onNode
  dsimp only
  split
  · exact ⟨rfl, h⟩
  · exact hf _

theorem enqueueAll (h : R c c') (es : List Entry) :
    R { c with relay := c.relay.enqueueAll es } { c' with relay := c'.relay.enqueueAll es } := by
  induction es generalizing c c' with
  | nil => exact h
  | cons e es ih => exact ih (B.enqueue e h)

theorem drained (h : R c c') : R c.drained c'.drained := by
  obtain ⟨r, rfl⟩ := B.same h
  have hqueued := B.enqueueAll h (c.engine.run c.capacity).1.victims
  unfold Cache.drained
  dsimp only
  split <;> exact B.revise hqueued rfl rfl

theorem check (h : R c c') : c'.check = c.check := by
  have hrest : c'.restFault? = c.restFault? := by
    have hqueue := B.queue h
    obtain ⟨r, rfl⟩ := B.same h
    unfold restFault?
    rw [hqueue]
  obtain ⟨r, rfl⟩ := B.same h
  unfold Cache.check
  rw [hrest]
  rfl

theorem metrics (h : R c c') : c'.metrics = c.metrics := by
  have hfailures := B.failures h
  obtain ⟨r, rfl⟩ := B.same h
  unfold Cache.metrics
  rw [hfailures]
  rfl

theorem step (h : R c c') (act : Act) (answer : Answer Step) (meanwhile : Option (List Step)) :
    c'.step act answer meanwhile = c.step act answer meanwhile := by
  obtain ⟨r, rfl⟩ := B.same h
  rfl

/-- What ends with the same result is reported alike. -/
theorem reported {α : Type} {r r' : α × Cache} (h : Abreast Eq R r r') (act : Act)
    (f : α → Answer Step) : Abreast Eq R (r.2.step act (f r.1) none, r.2)
      (r'.2.step act (f r'.1) none, r'.2) :=
  ⟨by rw [h.report, B.step h.cache], h.cache⟩

theorem clear (h : R c c') : Abreast Eq R (c.clear courier) (c'.clear courier') := by
  obtain ⟨r, rfl⟩ := B.same h
  unfold Cache.clear
  rw [cleared_eq, cleared_eq]
  dsimp only
  split
  · exact ⟨rfl, h⟩
  · have hcleared : R { c with
        engine := c.engine.clear.2, published := c.engine.clear.2.deque.weightedSize } _ :=
      B.revise h rfl rfl
    exact ⟨rfl, (B.deliver hcleared).cache⟩

theorem drain (h : R c c') : R (c.drain courier) (c'.drain courier') :=
  (B.deliver (B.drained h)).cache

theorem tryDrain (h : R c c') : R (c.tryDrain courier) (c'.tryDrain courier') := by
  have hdrain := B.drain h
  obtain ⟨r, rfl⟩ := B.same h
  unfold Cache.tryDrain
  dsimp only
  split
  · exact h
  · exact hdrain

theorem recordWithin (h : R c c') (event : Event) (n : Nat) :
    Option.Rel R (c.recordWithin courier event n) (c'.recordWithin courier' event n) := by
  induction n generalizing c c' with
  | zero => exact .none
  | succ n ih =>
    have hdrain := B.drain h
    obtain ⟨r, rfl⟩ := B.same h
    unfold Cache.recordWithin
    dsimp only
    cases hb : c.engine.buffers.recordOwn event with
    | error back =>
      cases Buffers.eq_of_record_eq_error hb
      dsimp only
      split
      · exact .none
      · exact ih hdrain
    | ok b =>
      have hrecorded : R { c with engine := { c.engine with buffers := b } } _ :=
        B.revise h rfl rfl
      dsimp only
      split
      · exact .some (B.tryDrain hrecorded)
      · exact .some hrecorded

theorem finishWrite {α : Type} (h : R c c') (event : Event) (result : α) :
    Abreast Eq R (c.finishWrite courier event result) (c'.finishWrite courier' event result) := by
  have hwithin := B.recordWithin h event (c.scriptsLeft + 2)
  unfold Cache.finishWrite recordWrite
  rw [B.scripts h]
  generalize c.recordWithin courier event (c.scriptsLeft + 2) = o at hwithin ⊢
  generalize c'.recordWithin courier' event (c.scriptsLeft + 2) = o' at hwithin ⊢
  cases hwithin with
  | some hnext => exact ⟨rfl, hnext⟩
  | none => exact ⟨rfl, h⟩

/-- A write that has changed both alike, up to its event. -/
theorem wrote {α : Type} {d : Cache} {r : Relay (Listener (List Op)) (List Step)}
    (h : R c { c with relay := r }) (hrelay : d.relay = c.relay) (hweigher : d.weigher = c.weigher)
    (event : Event) (result : α) :
    Abreast Eq R (d.finishWrite courier event result)
      (({ d with relay := r } : Cache).finishWrite courier' event result) :=
  B.finishWrite (B.revise h hrelay hweigher) event result

theorem overwrite (h : R c c') (id : NodeId) (fresh : Held) :
    Option.Rel (Abreast Eq R) (c.overwrite courier id fresh) (c'.overwrite courier' id fresh) := by
  obtain ⟨r, rfl⟩ := B.same h
  unfold Cache.overwrite
  dsimp only
  cases c.engine.pool.replace id fresh with
  | none => exact .none
  | some previous =>
    exact .some (B.wrote h (by rfl) (by rfl) _ _)

theorem meetLive (h : R c c') (onLive : OnLive) (fresh : Held) (id : NodeId) (sight : Sight) :
    Option.Rel (Abreast Eq R) (c.meetLive courier onLive fresh id sight)
      (c'.meetLive courier' onLive fresh id sight) := by
  cases onLive with
  | overwrite => exact B.overwrite h id fresh
  | keep => exact .some ⟨rfl, B.recordRead h id⟩

theorem occupy (h : R c c') (i : Insertion) :
    Option.Rel (Abreast Eq R) (c.occupy courier i) (c'.occupy courier' i) := by
  obtain ⟨r, rfl⟩ := B.same h
  have hmapped : ({ c with relay := r } : Cache).mapFresh? i.key i.fresh i.vacancy =
      (c.mapFresh? i.key i.fresh i.vacancy).map fun next => { next with relay := r } := by
    unfold mapFresh?
    rw [Option.map_map]
    rfl
  unfold Cache.occupy
  rw [hmapped]
  cases hm : c.mapFresh? i.key i.fresh i.vacancy with
  | none => exact .none
  | some next =>
    obtain ⟨store, _, rfl⟩ := Option.map_eq_some_iff.mp hm
    exact .some (B.wrote h (by rfl) (by rfl) _ _)

theorem seek (h : R c c') (onLive : OnLive) (key : Key) (fresh : Held) :
    (c.seek courier onLive key fresh).Abreast R (c'.seek courier' onLive key fresh) := by
  have hsight : c'.sight key = c.sight key := by
    obtain ⟨r, rfl⟩ := B.same h
    rfl
  unfold Cache.seek
  rw [hsight]
  cases c.sight key with
  | live id seen =>
    have hmeet := Abreast.getD (B.meetLive h onLive fresh id seen)
      (⟨rfl, h⟩ : Abreast Eq R (.blocked, c) (.blocked, c'))
    dsimp only
    generalize (c.meetLive courier onLive fresh id seen).getD (.blocked, c) = r at hmeet ⊢
    generalize (c'.meetLive courier' onLive fresh id seen).getD (.blocked, c') = r' at hmeet ⊢
    obtain ⟨reply, after⟩ := r
    obtain ⟨reply', after'⟩ := r'
    cases hmeet.report
    exact .settled hmeet.cache
  | unmapped | retired => exact .gap _

theorem startInsert (h : R c c') (onLive : OnLive) (key : Key) (value : Value) :
    (c.startInsert courier onLive key value).Abreast R
      (c'.startInsert courier' onLive key value) := by
  have hweigh : c'.weigh value = c.weigh value := by
    obtain ⟨r, rfl⟩ := B.same h
    rfl
  unfold Cache.startInsert
  rw [hweigh]
  cases c.weigh value with
  | error message => exact .settled h
  | ok fresh => exact B.seek h onLive key fresh

theorem resumeInsert (h : R c c') (i : Insertion) :
    Abreast Eq R (c.resumeInsert courier i) (c'.resumeInsert courier' i) := by
  have hnow : Abreast Eq R (c.insertNow courier i.onLive i.key i.fresh)
      (c'.insertNow courier' i.onLive i.key i.fresh) :=
    (B.seek h i.onLive i.key i.fresh).finish fun i => .getD (B.occupy h i) ⟨rfl, h⟩
  exact .getD (B.occupy h i) hnow

theorem resumeSwap (h : R c c') (w : Conditional) :
    Abreast Eq R (c.resumeSwap courier w) (c'.resumeSwap courier' w) := by
  obtain ⟨r, rfl⟩ := B.same h
  unfold Cache.resumeSwap
  dsimp only
  cases c.engine.pool.swapSeen w.node w.seen (· == w.expected) w.next with
  | error refusal => exact ⟨rfl, h⟩
  | ok result =>
    dsimp only
    split
    · exact B.wrote h (by rfl) (by rfl) _ _
    · exact B.wrote h (by rfl) (by rfl) _ _

theorem remove (h : R c c') (key : Key) :
    Abreast Eq R (c.remove courier key) (c'.remove courier' key) := by
  obtain ⟨r, rfl⟩ := B.same h
  unfold Cache.remove
  dsimp only
  cases c.engine.store.remove key with
  | none => exact ⟨rfl, h⟩
  | some result =>
    dsimp only
    cases c.engine.pool.retire result.1 with
    | none => exact ⟨rfl, B.revise h rfl rfl⟩
    | some last => exact B.wrote h (by rfl) (by rfl) _ _

theorem replace (h : R c c') (key : Key) (value : Value) :
    Abreast Eq R (c.replace courier key value) (c'.replace courier' key value) := by
  have hweigh : c'.weigh value = c.weigh value := by
    obtain ⟨r, rfl⟩ := B.same h
    rfl
  have hstore : c'.engine.store = c.engine.store := by
    obtain ⟨r, rfl⟩ := B.same h
    rfl
  unfold Cache.replace
  rw [hweigh, hstore]
  cases c.engine.store.get? key with
  | none => exact ⟨rfl, h⟩
  | some id =>
    dsimp only
    cases c.weigh value with
    | error message => exact ⟨rfl, h⟩
    | ok fresh => exact .getD (B.overwrite h id fresh) ⟨rfl, h⟩

theorem setCapacity (h : R c c') (capacity : Nat) :
    Abreast Eq R (c.setCapacity courier capacity) (c'.setCapacity courier' capacity) := by
  obtain ⟨r, rfl⟩ := B.same h
  have hcap : R { c with capacity } _ := B.revise h rfl rfl
  unfold Cache.setCapacity
  dsimp only
  split
  · exact ⟨rfl, h⟩
  · split
    · exact ⟨rfl, h⟩
    · exact ⟨rfl, B.drain hcap⟩

theorem cleanUp (h : R c c') : Abreast Eq R (c.cleanUp courier) (c'.cleanUp courier') := by
  have hdrain := B.drain h
  obtain ⟨r, rfl⟩ := B.same h
  unfold Cache.cleanUp
  dsimp only
  split
  · exact ⟨rfl, h⟩
  · exact ⟨rfl, hdrain⟩

end Cache.Bisimulation

theorem Call.start_bisim (h : R c c') (call : Call) :
    (call.start courier c).Abreast R (call.start courier' c') := by
  cases call with
  | put key value => exact (B.startInsert h .overwrite key value).answering _ _
  | putIfAbsent key value => exact (B.startInsert h .keep key value).answering _ _
  | removeIf key expected => exact (B.startRemoveIf h key expected).answering _ _
  | replaceIf key expected value => exact (B.startReplaceIf h key expected value).answering _ _
  | get key =>
    have hget := B.get h key
    simp only [start, hget.report]
    exact .settled hget.cache
  | replace key value => exact ((B.replace h key value).answering _).settled
  | remove key => exact ((B.remove h key).answering _).settled
  | setCapacity limit => exact ((B.setCapacity h limit).answering _).settled
  | clear => exact ((B.clear h).answering _).settled
  | cleanUp => exact ((B.cleanUp h).answering _).settled
  | check =>
    simp only [start, B.check h]
    exact .settled h
  | metrics =>
    simp only [start, B.metrics h]
    exact .settled h
  | getQuietly | contains | length | isEmpty | weightedSize | capacity | describe =>
    obtain ⟨r, rfl⟩ := B.same h
    exact .settled h

theorem Suspended.resume_bisim (h : R c c') (s : Suspended) :
    Abreast Eq R (s.resume courier c) (s.resume courier' c') := by
  cases s with
  | insertion i => exact (B.resumeInsert h i).answering _
  | conditional w => exact (B.resumeSwap h w).answering _

theorem Call.run_bisim (h : R c c') (call : Call) :
    Abreast Eq R (call.run courier c) (call.run courier' c') :=
  (call.start_bisim B h).finish fun s => s.resume_bisim B h

namespace Cache.Bisimulation

theorem probe (h : R c c') (p : Probe) :
    Abreast Eq R (c.probe courier p) (c'.probe courier' p) := by
  cases p with
  | order | entries | pending | statuses =>
    obtain ⟨r, rfl⟩ := B.same h
    exact ⟨rfl, h⟩
  | rawCapacity =>
    obtain ⟨r, rfl⟩ := B.same h
    exact ⟨rfl, B.revise h rfl rfl⟩
  | unmap key =>
    obtain ⟨r, rfl⟩ := B.same h
    simp only [Cache.probe]
    split
    · exact ⟨rfl, h⟩
    · exact ⟨rfl, B.revise h rfl rfl⟩
  | map key value =>
    obtain ⟨r, rfl⟩ := B.same h
    have hweigh : ({ c with relay := r } : Cache).weigh value = c.weigh value := rfl
    simp only [Cache.probe, mapRaw, hweigh]
    split
    · exact ⟨rfl, h⟩
    · split
      · exact ⟨rfl, h⟩
      · exact ⟨rfl, B.revise h rfl rfl⟩
  | remap key value =>
    obtain ⟨r, rfl⟩ := B.same h
    have hweigh : ({ c with relay := r } : Cache).weigh value = c.weigh value := rfl
    simp only [Cache.probe, remapRaw, hweigh]
    split
    · exact ⟨rfl, h⟩
    · split
      · exact ⟨rfl, h⟩
      · split
        · exact ⟨rfl, h⟩
        · exact ⟨rfl, B.revise h rfl rfl⟩
  | notify key value => exact ⟨rfl, B.enqueue ⟨key, value⟩ h⟩
  | deliver =>
    have hdeliver := B.deliver h
    exact ⟨congrArg Answer.count hdeliver.report, hdeliver.cache⟩
  | retire key =>
    refine B.onNode h key fun id => ?_
    obtain ⟨r, rfl⟩ := B.same h
    unfold retireRaw
    dsimp only
    split
    · exact ⟨rfl, h⟩
    · exact ⟨rfl, B.revise h rfl rfl⟩
  | node key =>
    simp only [Cache.probe]
    refine B.onNode h key fun id => ?_
    obtain ⟨r, rfl⟩ := B.same h
    dsimp only
    split <;> exact ⟨rfl, h⟩
  | record key stripe kind =>
    refine B.onNode h key fun id => ?_
    obtain ⟨r, rfl⟩ := B.same h
    unfold recordRaw
    dsimp only
    split
    · exact ⟨rfl, h⟩
    · exact ⟨rfl, B.revise h rfl rfl⟩
  | apply key kind =>
    refine B.onNode h key fun id => ?_
    obtain ⟨r, rfl⟩ := B.same h
    unfold applyRaw
    dsimp only
    split
    · exact ⟨rfl, h⟩
    · exact ⟨rfl, B.revise h rfl rfl⟩
  | linkWeight key weight =>
    refine B.onNode h key fun id => ?_
    obtain ⟨r, rfl⟩ := B.same h
    unfold linkWeightRaw
    dsimp only
    split
    · exact ⟨rfl, h⟩
    · split
      · exact ⟨rfl, h⟩
      · exact ⟨rfl, B.revise h rfl rfl⟩

theorem fill (h : R c c') (f : Filling) (numbers : List Nat) (replaced : Nat) :
    Abreast Eq R (c.fill courier f numbers replaced) (c'.fill courier' f numbers replaced) := by
  induction numbers generalizing replaced c c' with
  | nil => exact ⟨rfl, h⟩
  | cons i rest ih =>
    have hput : Abreast Eq R (c.put courier (f.key i) (f.value i))
        (c'.put courier' (f.key i) (f.value i)) :=
      (B.startInsert h .overwrite (f.key i) (f.value i)).finish fun i => B.resumeInsert h i
    unfold Cache.fill
    generalize c.put courier (f.key i) (f.value i) = r at hput ⊢
    generalize c'.put courier' (f.key i) (f.value i) = r' at hput ⊢
    obtain ⟨reply, after⟩ := r
    obtain ⟨reply', after'⟩ := r'
    cases hput.report
    cases reply with
    | returned previous => exact ih hput.cache _
    | refused message | blocked => exact ⟨rfl, hput.cache⟩

variable {S : List Step → List Step → Prop} {ops ops' : Cache → List Step × Cache}

theorem underLock (hops : ∀ {c c'}, R c c' → Abreast S R (ops c) (ops' c')) (h : R c c') :
    Abreast S R (c.underLock ops) (c'.underLock ops') := by
  obtain ⟨r, rfl⟩ := B.same h
  have hlocked : R { c with lockHeld := true } _ := B.revise h rfl rfl
  have hrun := hops hlocked
  have hafter := hrun.cache
  obtain ⟨r', hr'⟩ := B.same hafter
  rw [hr'] at hafter
  refine ⟨hrun.report, ?_⟩
  unfold Cache.underLock
  dsimp only
  rw [hr']
  exact B.revise hafter rfl rfl

omit B in
theorem repeated (hnil : S [] []) (hops : ∀ {c c'}, R c c' → Abreast S R (ops c) (ops' c'))
    (h : R c c') (times : Nat) :
    Abreast S R (Cache.repeated ops times c) (Cache.repeated ops' times c') := by
  fun_induction Cache.repeated ops times c generalizing c' with
  | case1 c => exact ⟨hnil, h⟩
  | case2 c => exact hops h
  | case3 n c ih => exact ih (hops h).cache

theorem discard (hnil : S [] []) (hops : ∀ {c c'}, R c c' → Abreast S R (ops c) (ops' c'))
    (h : R c c') :
    Abreast (fun p p' => p'.1 = p.1 ∧ S p.2 p'.2) R (c.discard ops) (c'.discard ops') := by
  -- The caches stay related, and the operations have run on both or on neither.
  let Level (w w' : Cache × Option (List Step)) : Prop := R w.1 w'.1 ∧ Option.Rel S w.2 w'.2
  have hbuffers (w w') (hw : Level w w') : w'.1.engine.buffers = w.1.engine.buffers := by
    obtain ⟨r, hr⟩ := B.same hw.1
    rw [hr]
  have hset (b : Buffers) (w w') (hw : Level w w') :
      Level (Buffered.setBuffers b w) (Buffered.setBuffers b w') := by
    obtain ⟨c, ran⟩ := w
    obtain ⟨c', ran'⟩ := w'
    obtain ⟨hc, hran⟩ := hw
    obtain ⟨r, hr⟩ := B.same hc
    dsimp only at hc hr
    subst hr
    exact ⟨B.revise hc rfl rfl, hran⟩
  have hevent (ev : Event) (w w') (hw : Level w w') :
      Level (during ops ev w) (during ops' ev w') := by
    obtain ⟨c, ran⟩ := w
    obtain ⟨c', ran'⟩ := w'
    obtain ⟨hc, hran⟩ := hw
    cases hran with
    | none => exact ⟨(hops hc).cache, .some (hops hc).report⟩
    | some hsteps => exact ⟨hc, .some hsteps⟩
  obtain ⟨hcount, hend, hran⟩ := Buffered.drain_sim hbuffers hset hevent
    (show Level (c, none) (c', none) from ⟨h, .none⟩)
  have hsteps {ran ran' : Option (List Step)} (hran : Option.Rel S ran ran') :
      S (ran.getD []) (ran'.getD []) := by
    cases hran with
    | none => exact hnil
    | some hsteps => exact hsteps
  rw [discard_eq, discard_eq]
  exact ⟨⟨hcount, hsteps hran⟩, hend⟩

end Cache.Bisimulation

end

mutual

/-- An operation does the same to two related caches, and reports the same. -/
theorem Op.run_bisim (B : Bisimulation R courier courier') :
    ∀ (op : Op) {c c' : Cache}, R c c' → Abreast Eq R (op.run courier c) (op.run courier' c')
  | .call request, _, _, h => B.reported (request.run_bisim B h) (.call request) id
  | .probe request, _, _, h => B.reported (B.probe h request) (.probe request) id
  | .interrupted request meanwhile, c, c', h => by
    have hstart := request.start_bisim B h
    unfold Op.run
    generalize request.start courier c = p at hstart ⊢
    generalize request.start courier' c' = p' at hstart ⊢
    cases hstart with
    | settled cache => exact ⟨(B.step cache ..).symm, cache⟩
    | gap s =>
      have hmeanwhile := Op.runAll_bisim B meanwhile h
      have hrest := s.resume_bisim B hmeanwhile.cache
      dsimp only
      rw [hmeanwhile.report, hrest.report, B.step hrest.cache]
      exact ⟨rfl, hrest.cache⟩
  | .hold ops, _, _, h => B.reported (B.underLock (Op.runAll_bisim B ops) h) .block .steps
  | .contended ops, _, _, h => B.reported (Op.runAll_bisim B ops h) .block .steps
  | .discard ops, _, _, h =>
    have hrun := B.discard rfl (Op.runAll_bisim B ops) h
    B.reported ⟨(Prod.ext hrun.report.1 hrun.report.2.symm).symm, hrun.cache⟩ .block
      fun ran => .discarded ran.1 ran.2
  | .repeated times ops, _, _, h =>
    B.reported (Bisimulation.repeated rfl (Op.runAll_bisim B ops) h times) .block .steps
  | .fill row, _, _, h => B.reported (B.fill h row row.numbers 0) .block id

theorem Op.runAll_bisim (B : Bisimulation R courier courier') :
    ∀ (ops : List Op) {c c' : Cache}, R c c' →
      Abreast Eq R (Op.runAll courier ops c) (Op.runAll courier' ops c')
  | [], _, _, h => ⟨rfl, h⟩
  | op :: rest, c, c', h => by
    have hop := Op.run_bisim B op h
    have hrest := Op.runAll_bisim B rest hop.cache
    unfold Op.runAll
    exact ⟨congrArg₂ List.cons hop.report hrest.report, hrest.cache⟩

end

end BoundedCache
