import Mathlib
import BoundedCache.Proofs.Cache.Credits
import BoundedCache.Proofs.Cache.WrittenOut
import BoundedCache.Proofs.Cache.Integrity

namespace BoundedCache

variable {c : Cache} {courier : Courier}

namespace Cache

namespace Credits

variable {p : Probe}

/-- No probe but one retires anybody. -/
theorem probing {c c' : Cache} (h : Credits [] c c') (hp : ∀ key, p ≠ .retire key)
    (answer : Answer Step) : Credits [⟨.probe p, answer⟩] c c' := by
  refine h.idle ?_ rfl
  cases p with
  | retire key => exact absurd rfl (hp key)
  | _ => rfl

theorem onNode {f : NodeId → Cache → Answer Step × Cache} (hf : ∀ id, Credits [] c (f id c).2)
    (key : Key) : Credits [] c (c.onNode key f).2 := by
  unfold Cache.onNode
  split
  · exact refl c
  · exact hf _

theorem mapRaw (key : Key) (value : Value) (c : Cache) : Credits [] c (c.mapRaw key value).2 := by
  unfold Cache.mapRaw
  cases c.weigh value with
  | error message => exact refl c
  | ok fresh =>
    dsimp only
    cases ht : c.engine.store.insertIfAbsent key c.engine.pool.next with
    | error resident => exact refl c
    | ok s => exact change (.insert ht) (c.engine.pool.graves_add key fresh)

theorem remapRaw (key : Key) (value : Value) (c : Cache) :
    Credits [] c (c.remapRaw key value).2 := by
  unfold Cache.remapRaw
  dsimp only
  cases c.engine.store.get? key with
  | none => exact refl c
  | some id =>
    dsimp only
    cases c.weigh value with
    | error message => exact refl c
    | ok fresh =>
      dsimp only
      cases ht : c.engine.store.replaceIfMatch key id c.engine.pool.next with
      | none => exact refl c
      | some s => exact change (.supersede ht) (c.engine.pool.graves_add key fresh)

theorem recordRaw (id : NodeId) (stripe : Nat) (kind : EventKind) (c : Cache) :
    Credits [] c (c.recordRaw id stripe kind).2 := by
  unfold Cache.recordRaw
  dsimp only
  split
  · exact refl c
  · exact change (.record ‹_›) rfl

theorem applyRaw (id : NodeId) (kind : EventKind) (c : Cache) :
    Credits [] c (c.applyRaw id kind).2 := by
  unfold Cache.applyRaw
  split
  · exact refl c
  · exact change (.apply ⟨kind, id⟩) (by rw [Engine.pool_apply])

theorem linkWeightRaw (id : NodeId) (weight : Weight) (c : Cache) :
    Credits [] c (c.linkWeightRaw id weight).2 := by
  unfold Cache.linkWeightRaw
  split
  · exact refl c
  · split
    · exact refl c
    · exact change (.weigh ‹_› weight) rfl

/-- The probe that retires a node answers its value, unless it was retired before. -/
theorem retireRaw (key : Key) (c : Cache) :
    Credits [⟨.probe (.retire key), (c.onNode key Cache.retireRaw).1⟩] c
      (c.onNode key Cache.retireRaw).2 := by
  intro hl
  unfold Cache.onNode
  cases hk : c.engine.store.get? key with
  | none => exact (refl c).idle rfl rfl hl
  | some id =>
    have hkey := hl.sound.keyed key id hk
    dsimp only
    unfold Cache.retireRaw
    cases hr : c.engine.pool.retire id with
    | none => exact (refl c).idle rfl rfl hl
    | some result => exact buries (Pool.rewrites_of_retire hr) (congrArg some hkey.symm) rfl hl

theorem probe (hc : courier.Honest) (p : Probe) (c : Cache) :
    Credits [⟨.probe p, (c.probe courier p).1⟩] c (c.probe courier p).2 := by
  cases p with
  | order | entries | pending | statuses => exact (refl c).idle rfl rfl
  | unmap key =>
    refine probing ?_ (by simp) _
    simp only [Cache.probe]
    cases hr : c.engine.store.remove key with
    | none => exact refl c
    | some result => exact change (.unmap (Store.remove_eq_some_iff.mp hr)) rfl
  | map key value => exact (mapRaw key value c).probing (by simp) _
  | remap key value => exact (remapRaw key value c).probing (by simp) _
  | rawCapacity capacity =>
    have hcap : Credits [] c { c with capacity } := same rfl rfl rfl rfl
    exact hcap.probing (by simp) _
  | notify key value =>
    have hqueue : Credits [] c { c with relay := c.relay.enqueue ⟨key, value⟩ } := by
      unfold Relay.enqueue
      split <;> exact of_changes .refl rfl rfl rfl rfl rfl
    exact hqueue.probing (by simp) _
  | deliver => exact (hc.credits c).probing (by simp) _
  | retire key => exact retireRaw key c
  | node key =>
    refine (onNode (fun id => ?_) key).probing (by simp) _
    split <;> exact refl c
  | record key stripe kind =>
    exact (onNode (fun id => recordRaw id stripe kind c) key).probing (by simp) _
  | apply key kind => exact (onNode (fun id => applyRaw id kind c) key).probing (by simp) _
  | linkWeight key weight =>
    exact (onNode (fun id => linkWeightRaw id weight c) key).probing (by simp) _

theorem fill (hc : courier.Honest) (f : Filling) (numbers : List Nat) (replaced : Nat) (c : Cache) :
    Credits [] c (c.fill courier f numbers replaced).2 :=
  fill_rel refl (fun h h' => h.trans h') f (fun i c => put hc (f.key i) (f.value i) c)
    numbers replaced c

end Credits

/-- A row of insertions tells nothing of the single ones. -/
theorem deeds_fill (courier : Courier) (f : Filling) (numbers : List Nat) (replaced : Nat)
    (c : Cache) : (c.fill courier f numbers replaced).1.deeds = [] := by
  induction numbers generalizing replaced c with
  | nil => rfl
  | cons i rest ih =>
    unfold Cache.fill
    rcases c.put courier (f.key i) (f.value i) with ⟨reply, after⟩
    cases reply with
    | returned previous => exact ih _ _
    | refused message => rfl
    | blocked => rfl

namespace Credits

variable {ops : Cache → List Step × Cache}

theorem underLock (hops : ∀ c : Cache, Credits (Step.allDeeds (ops c).1) c (ops c).2) (c : Cache) :
    Credits (Step.allDeeds (c.underLock ops).1) c (c.underLock ops).2 := by
  have hlock : Credits [] c { c with lockHeld := true } := same rfl rfl rfl rfl
  have hunlock (after : Cache) : Credits [] after { after with lockHeld := c.lockHeld } :=
    same rfl rfl rfl rfl
  have hrun := (hlock.trans (hops _)).trans (hunlock _)
  rw [List.nil_append, List.append_nil] at hrun
  exact hrun

/-- The operations run during the first event, if there is one, and are reported if they did. -/
theorem discard (hops : ∀ c : Cache, Credits (Step.allDeeds (ops c).1) c (ops c).2) (c : Cache) :
    Credits (Step.allDeeds (c.discard ops).1.2) c (c.discard ops).2 := by
  let done (w : Cache × Option (List Step)) : List Deed := Step.allDeeds (w.2.getD [])
  let R (w w' : Cache × Option (List Step)) : Prop :=
    ∃ ds, done w' = done w ++ ds ∧ Credits ds w.1 w'.1
  have hstill (w : Cache × Option (List Step)) : R w w := ⟨[], (List.append_nil _).symm, refl w.1⟩
  have hstep (ev : Event) (w : Cache × Option (List Step)) : R w (during ops ev w) := by
    obtain ⟨c, ran⟩ := w
    cases ran with
    | none => exact ⟨Step.allDeeds (ops c).1, rfl, hops c⟩
    | some steps => exact hstill _
  have hdrain : R (c, none) (Buffered.drain (during ops) (c, none)).2 :=
    Buffered.drain_rel hstill
      (fun ⟨ds, hds, h⟩ ⟨ds', hds', h'⟩ =>
        ⟨ds ++ ds', by rw [hds', hds, List.append_assoc], h.trans h'⟩)
      (fun w b hb => ⟨[], (List.append_nil _).symm, change (.rebuffer b hb) rfl⟩)
      hstep (c, none)
  obtain ⟨ds, hds, h⟩ := hdrain
  have hds' : Step.allDeeds ((Buffered.drain (during ops) (c, none)).2.2.getD []) = ds := hds
  rw [discard_eq]
  dsimp only
  rw [hds']
  exact h

end Credits

end Cache

open Cache

mutual

/-- The ledger is kept across an operation of any kind. -/
theorem Op.run_credits (hc : courier.Honest) : ∀ (op : Op) (c : Cache), op.written = true →
    Credits (op.run courier c).1.deeds c (op.run courier c).2
  | .call request, c, _ => request.run_credits hc c
  | .probe request, c, _ => Credits.probe hc request c
  | .interrupted request meanwhile, c, hw => by
    intro hl
    have hstart := request.start_owed hc hl
    unfold Op.run
    cases hcall : request.start courier c with
    | settled answer after =>
      rw [hcall] at hstart
      cases hstart with
      | settled credits => exact credits hl
    | gap s =>
      rw [hcall] at hstart
      cases hstart with
      | gap owes =>
        have hgap := Op.runAll_credits hc meanwhile c hw
        have hmoves := Op.runAll_moves hc.moving meanwhile c
        exact (hgap.trans (Suspended.resume_credits hc (hmoves.owes owes))) hl
  | .hold ops, c, hw => Credits.underLock (fun c => Op.runAll_credits hc ops c hw) c
  | .contended ops, c, hw => Op.runAll_credits hc ops c hw
  | .discard ops, c, hw => Credits.discard (fun c => Op.runAll_credits hc ops c hw) c
  | .repeated .., _, hw => by cases hw
  | .fill row, c, _ => by
    have hfill := Credits.fill hc row row.numbers 0 c
    rw [← deeds_fill courier row row.numbers 0 c] at hfill
    exact hfill

/-- So it is across operations that run one after the other. -/
theorem Op.runAll_credits (hc : courier.Honest) : ∀ (ops : List Op) (c : Cache),
    Op.allWritten ops = true →
      Credits (Step.allDeeds (Op.runAll courier ops c).1) c (Op.runAll courier ops c).2
  | [], c, _ => .refl c
  | op :: rest, c, hw => by
    rw [Op.allWritten, Bool.and_eq_true] at hw
    exact (Op.run_credits hc op c hw.1).trans (Op.runAll_credits hc rest _ hw.2)

end

theorem Courier.honest_busy : Courier.busy.Honest := ⟨Courier.moving_busy, fun c => .refl c⟩

namespace Cache

variable {c' : Cache} {l l' : Listener (List Op)} {n : Nat} {e : Entry} {ds : List Deed}

/-- What a reaction did is told of with its notice. -/
theorem Credits.logged {notice : Notice (List Step)} (h : Credits notice.deeds c c') :
    Credits [] c { c' with relay := c'.relay.log notice } := by
  intro hl
  obtain ⟨hl', told, vs, keys, hledger⟩ := h hl
  refine ⟨⟨hl'.sound, hl'.stocked⟩, told ++ [notice], vs, keys, ?_, hledger.victims,
    hledger.evictions, ?_, fun key => ?_⟩
  · show c'.relay.notices ++ [notice] = _
    rw [hledger.notices, List.append_assoc]
  · have hcleared := hledger.cleared
    rw [List.flatMap_append, clearings_append]
    simp only [clearings, List.flatMap_cons, List.flatMap_nil, List.append_nil, List.map_nil,
      List.sum_nil] at hcleared ⊢
    omega
  · have hgraves := hledger.graves key
    show c'.engine.pool.graves.count key = _
    rw [List.flatMap_append, graves_append, List.count_append]
    simp only [graves, List.flatMap_cons, List.flatMap_nil, List.append_nil, List.filterMap_nil,
      List.count_nil] at hgraves ⊢
    omega

theorem tell_credits (hl : l.Stocks (Op.allWritten · = true)) (e : Entry) (c : Cache) :
    Credits [] c (c.tell l e) := by
  cases hs : (l.respond e).1.script with
  | none =>
    rw [tell_of_silent hs]
    exact Credits.logged (Credits.refl c)
  | some script =>
    have hscript := (Listener.stocks_respond hl e).1 script hs
    rw [tell_of_script hs]
    exact Credits.logged (Op.runAll_credits Courier.honest_busy script c hscript)

theorem Deliveries.credits (h : Deliveries l c n l' c') (hl : l.Stocks (Op.allWritten · = true)) :
    Credits [] c c' ∧ l'.Stocks (Op.allWritten · = true) := by
  induction h with
  | done => exact ⟨.refl _, hl⟩
  | @next l l' c c' e rest n _ _ ih =>
    have hdequeue : Credits [] c (c.dequeue rest) := .of_changes .refl rfl rfl rfl rfl rfl
    obtain ⟨hlater, hl'⟩ := ih (Listener.stocks_respond hl e).2
    exact ⟨(hdequeue.trans (tell_credits hl e _)).trans hlater, hl'⟩

theorem honest_deliver : Courier.Honest deliver := by
  refine ⟨moving_deliver, fun c => ?_⟩
  rcases deliver_cases c with ⟨_, hd⟩ | ⟨l, n, l', c', hlistener, hdel, hd⟩
  · rw [hd]
    exact .refl c
  · intro hlegible
    have haway : (c.withListener none).Legible :=
      ⟨hlegible.sound, stocked_away _ c⟩
    obtain ⟨hcredits, hl'⟩ := hdel.credits (hlegible.stocked l hlistener)
    obtain ⟨hend, told, vs, keys, hledger⟩ := hcredits haway
    rw [hd]
    refine ⟨⟨hend.sound, fun l hl => ?_⟩, told, vs, keys, hledger.notices, hledger.victims,
      hledger.evictions, hledger.cleared, hledger.graves⟩
    cases hl
    exact hl'

/-- The reports show every notice. -/
theorem notices_perform_of_written {ops : List Op} (hw : Op.allWritten ops = true)
    (hl : c.Legible) : (perform ops c).2.relay.notices =
      c.relay.notices ++ (perform ops c).1.flatMap (·.notices) := by
  induction ops generalizing c with
  | nil => exact (List.append_nil _).symm
  | cons op rest ih =>
    rw [Op.allWritten, Bool.and_eq_true] at hw
    obtain ⟨hl', told, _, _, hledger⟩ := Op.run_credits honest_deliver op c hw.1 hl
    rw [perform, List.flatMap_cons, ← List.append_assoc]
    refine (ih hw.2 hl').trans (congrArg (· ++ _) ?_)
    rw [hledger.notices, List.drop_left]

/-- The ledger of a whole run. -/
theorem ledger_perform {s : Settings} {ops : List Op} (hw : Op.allWritten ops = true)
    (hs : ∀ l ∈ s.listener, l.Stocks (Op.allWritten · = true)) :
    let (reports, last) := perform ops s.empty
    last.victims.length = last.metrics.evictions ∧
      ∃ keys : List Key, keys.length = clearings (reports.flatMap Report.deeds) ∧
        last.engine.pool.graves.Perm
          (graves (reports.flatMap Report.deeds) ++ last.victims.map (·.key) ++ keys) := by
  have hlegible : s.empty.Legible := ⟨.empty _, hs⟩
  have hrun := Op.runAll_credits honest_deliver ops s.empty hw
  rw [← (perform_eq ops s.empty).1, ← (perform_eq ops s.empty).2, allDeeds_map_step] at hrun
  obtain ⟨_, told, vs, keys, hledger⟩ := hrun hlegible
  have hnotices := notices_perform_of_written hw hlegible
  have hdeeds := perm_deeds hnotices
  have htold : (perform ops s.empty).2.reactions = told.flatMap Notice.deeds := by
    rw [reactions, hledger.notices]
    rfl
  have hvictims : (perform ops s.empty).2.victims = vs := hledger.victims
  rw [htold] at hdeeds
  refine ⟨?_, keys, ?_, ?_⟩
  · have hevictions : (perform ops s.empty).2.counters.evictions = 0 + vs.length :=
      hledger.evictions
    rw [hvictims]
    exact (Nat.zero_add _).symm.trans hevictions.symm
  · have hcleared := hledger.cleared
    rw [← clearings_append] at hcleared
    rw [hcleared]
    exact ((hdeeds.map Deed.cleared).sum_nat).symm
  · rw [List.perm_iff_count]
    intro key
    have hgraves := hledger.graves key
    have hcount := (hdeeds.filterMap Deed.grave).count_eq key
    have hempty : s.empty.engine.pool.graves.count key = 0 := rfl
    rw [List.filterMap_append, List.count_append] at hcount
    rw [List.count_append, List.count_append, hvictims]
    simp only [graves] at hgraves hcount ⊢
    omega

/-- A node that is retired in one cache has left it for good in a later one: it holds nothing, no
write to it goes through, not even one that had loaded its value before, and it is linked or mapped
only if it still was in the earlier cache. -/
structure Buried (id : NodeId) (c c' : Cache) : Prop where
  dead : c'.engine.pool.held id = none
  refuses : ∀ accepts next, c'.engine.pool.swapWhen id accepts next = .error .retired
  refusesSeen : ∀ (c₀ : Cache) (seen : Sight), c₀.Moves c' → c₀.engine.pool.load id = some seen →
    ∀ accepts next, ∃ refusal, c'.engine.pool.swapSeen id seen accepts next = .error refusal
  unlinked : c.engine.deque.slotOf id = none → c'.engine.deque.slotOf id = none
  unmapped : (∀ key, c.engine.store.get? key ≠ some id) →
    ∀ key, c'.engine.store.get? key ≠ some id

theorem Moves.buried {s : Settings} {id : NodeId} (h : c.Moves c') (hc : Reachable s c)
    (hid : id ∈ c.engine.pool.retired) : Buried id c c' := by
  obtain ⟨hmade, hdead⟩ := Pool.mem_retired.mp hid
  have hleft := Engine.Left.of_changes h.engine hc.wellFormed hmade hdead
  refine ⟨hleft.dead, Pool.swapWhen_of_retired hleft.made hleft.dead, ?_, ?_, hleft.unmapped⟩
  · intro c₀ seen hmoves hload accepts next
    have hsaw := (Pool.saw_of_load hload).grows hmoves.evolves.pool
    exact Pool.swapSeen_of_retired hsaw hleft.dead accepts next
  · have hlinked := hleft.unlinked
    rw [hc.wellFormed.mem_order_iff, (hc.moves h).wellFormed.mem_order_iff, not_not, not_not]
      at hlinked
    exact hlinked

variable {s : Settings} {fresh : Cache}

/-- Retirement is for good, and each retired node has one who answers for it: a removal that went
through, a counted eviction, a unit of a clearing's count, or a probe that retired it. The deeds are
read off the reports of the run with all repetitions written out, those of the listener included,
which leads to the same cache but for its relay. -/
theorem retirement (hbuild : s.build = .ok fresh) (ops : List Op) :
    (∀ c c' : Cache, fresh.Moves c → c.Moves c' → ∀ id ∈ c.engine.pool.retired, Buried id c c') ∧
    ∃ fresh', s.writtenOut.build = .ok fresh' ∧
      let (reports, last) := perform (Op.writeOutAll ops) fresh'
      last = { (perform ops fresh).2 with relay := last.relay } ∧
        last.metrics = (perform ops fresh).2.metrics ∧
        last.victims.length = last.metrics.evictions ∧
        ∃ keys : List Key, keys.length = clearings (reports.flatMap Report.deeds) ∧
          last.engine.pool.graves.Perm
            (graves (reports.flatMap Report.deeds) ++ last.victims.map (·.key) ++ keys) := by
  refine ⟨fun c c' hc h id hid => h.buried ⟨fresh, hbuild, hc⟩ hid, ?_⟩
  have hbuild' := Settings.build_withListener hbuild (s.listener.map Listener.writtenOut)
  obtain ⟨_, rfl⟩ := Settings.eq_empty_of_build hbuild
  have hsame := perform_writtenOut s ops
  have hmetrics := (metrics_veiled veil_scrub _).symm.trans
    ((congrArg metrics hsame).trans (metrics_veiled veil_scrub _))
  have hscripts : ∀ l ∈ s.writtenOut.listener, l.Stocks (Op.allWritten · = true) := by
    intro l hl
    obtain ⟨original, _, rfl⟩ := Option.map_eq_some_iff.mp hl
    exact original.stocks_writtenOut
  exact ⟨_, hbuild', eq_of_veiled hsame, hmetrics,
    ledger_perform (Op.allWritten_writeOutAll ops) hscripts⟩

/-- A cache for two entries. When its listener is told of a first key, it takes another one away
over and over, of which only the last time is reported. -/
def vengeful : Settings :=
  { capacity := 2, listener := some { scripts := [("a", [[.repeated 2 [.call (.remove "b")]]])] } }

def burials : List Op :=
  [.repeated 2 [.call (.put "a" "1"), .call (.removeIf "a" "1")],
    .call (.put "a" "2"), .call (.put "b" "3"), .call (.put "c" "4"), .call (.put "d" "5"),
    .probe (.retire "d"), .call (.put "d" "6"), .interrupted (.put "e" "7") [.call (.remove "d")],
    .call .clear]

theorem retirement_burials :
    (∀ c c' : Cache, vengeful.empty.Moves c → c.Moves c' →
      ∀ id ∈ c.engine.pool.retired, Buried id c c') ∧
    (perform burials vengeful.empty).2.engine.pool.graves = ["a", "a", "a", "b", "c", "d", "d", "e"] ∧
    let (reports, last) := perform (Op.writeOutAll burials) vengeful.writtenOut.empty
    last = { (perform burials vengeful.empty).2 with relay := last.relay } ∧
      ∃ keys : List Key, keys.length = clearings (reports.flatMap Report.deeds) ∧
        last.engine.pool.graves.Perm
          (graves (reports.flatMap Report.deeds) ++ last.victims.map (·.key) ++ keys) := by
  obtain ⟨hburied, fresh', hbuild, hsame, -, -, hledger⟩ := retirement (s := vengeful) rfl burials
  cases hbuild
  exact ⟨hburied, by cbv, hsame, hledger⟩

end Cache

end BoundedCache
