import Mathlib
import BoundedCache.Proofs.Cache.AtEase
import BoundedCache.Proofs.Cache.Covered
import BoundedCache.Proofs.Cache.Orderly
import BoundedCache.Proofs.Engine.Settled

namespace BoundedCache

def KeepsCover (ds : List Deed) (c c' : Cache) : Prop :=
  (∀ d ∈ ds, d.ended = true) → (∀ d ∈ c'.reactions, d.ended = true) →
    ∀ hand, c.Covered hand → c'.Covered hand

namespace Cache

variable {c c' : Cache} {scope : Scope} {courier : Courier} {hand : List Event} {P : List Op → Prop}

theorem keepsCover_trans {ds ds' : List Deed} {c'' : Cache} (h : c'.Evolves c'')
    (hk : KeepsCover ds c c') (hk' : KeepsCover ds' c' c'') : KeepsCover (ds ++ ds') c c'' := by
  intro hds hlater hand hc
  have hds' := List.forall_mem_append.mp hds
  have hearlier : ∀ d ∈ c'.reactions, d.ended = true :=
    fun d hd => hlater d (h.mem_reactions hd)
  exact hk' hds'.2 hlater hand (hk hds'.1 hearlier hand hc)

structure Guards (scope : Scope) (courier : Courier) : Prop where
  steady : courier.Steady scope.Allows
  keeps : ∀ c : Cache, c.Proper scope.Allows → KeepsCover [] c (courier c).2

theorem Guards.drain (hc : Guards scope courier) (hp : c.Proper scope.Allows) :
    KeepsCover [] c (c.drain courier) := by
  have hdrained : KeepsCover [] c c.drained := fun _ _ _ h => h.drained.1
  have hp' := (Evolves.drained c).proper hp
  exact keepsCover_trans (hc.steady _ hp') hdrained (hc.keeps _ hp')

/-- A writer that gets its event in keeps everything covered. -/
theorem Guards.recordWrite (hc : Guards scope courier) {event : Event}
    (hr : c.recordWrite courier event = some c') (hp : c.Proper scope.Allows)
    (hended : ∀ d ∈ c'.reactions, d.ended = true) (h : c.Covered (event :: hand)) :
    c'.Covered hand := by
  obtain ⟨ready, b, hd, hb, rfl⟩ := recordWithin_eq_some hr
  have hp' := (hd.evolves hc.steady hp).proper hp
  have hend := Evolves.settled hb hc.steady hp'
  have hdrains : KeepsCover [] c ready :=
    hd.rel (R := KeepsCover []) (fun _ _ _ _ h => h) (fun _ h hk hk' => keepsCover_trans h hk hk')
      (fun _ hp => hc.drain hp) hc.steady hp
  have hready : ready.Covered (event :: hand) :=
    hdrains (by simp) (fun d hd => hended d (hend.mem_reactions hd)) _ h
  have hrecorded := hready.record hb
  rcases settled_cases courier b ready with he | he
  · rw [he]
    exact hrecorded
  · rw [he] at hended ⊢
    exact hc.drain ((Evolves.rebuffer hb).proper hp') (by simp) hended _ hrecorded

/-- Covered stays covered across everything that calls do. -/
theorem lawful_keepsCover (hc : Guards scope courier) (hr : scope.record .remove = false) :
    Lawful scope courier KeepsCover where
  refl c _ _ _ h := h
  trans _ h hk hk' := keepsCover_trans h hk hk'
  call := by
    intro call answer c c' _ hp hperforms hds hended hand h
    have hdeed := hds _ (List.mem_singleton_self _)
    cases hperforms with
    | idle => exact h.of_eq rfl rfl
    | reads _ _ hl =>
      have hcount : (c.count (call.tally answer)).Covered hand := h.of_eq rfl rfl
      exact hcount.recordRead hl
    | writes hw hrecord =>
      exact hc.recordWrite hrecord (hw.evolves.proper hp) hended (h.write hw)
    | stuck hw =>
      obtain ⟨-, -, -, -, hstalls⟩ := Call.sorts_of_writes hw.moves
      simp [Deed.ended, Deed.does, hstalls] at hdeed
    | waits => exact h
    | @setCapacity capacity =>
      have hcap : Covered hand { c with capacity } := h.of_eq rfl rfl
      exact hc.drain ((Evolves.recap c capacity).proper hp) (by simp) hended hand hcap
    | cleanUp => exact hc.drain hp (by simp) hended hand h
    | clear =>
      have hp' := (Evolves.cleared c).proper hp
      exact hc.keeps _ hp' (by simp) hended hand h.cleared.1
  record := by
    intro key stripe kind c hkind hp _ _ hand h
    rcases probe_record_cases hp.paired courier key stripe kind with
      he | ⟨id, last, b, hl, hb, he⟩
    · rw [he]
      exact h
    · rw [he]
      refine h.recordExtra hl (fun hk => ?_) hb
      replace hk : kind = .remove := hk
      rw [hk, hr] at hkind
      cases hkind
  hold := by
    intro ds c c' _ _ hk hds hended hand h
    have hrun := hk hds hended hand (h.of_eq rfl rfl)
    exact hrun.of_eq rfl rfl

theorem telling_keepsCover : Telling KeepsCover where
  away := by
    intro c c' l _ hk hds hended hand h
    have hrun := hk hds hended hand (h.of_eq rfl rfl)
    exact hrun.of_eq rfl rfl
  notice := by
    intro e rest reaction payload c c' _ hevolves hk _ hended hand h
    have hall : ∀ d ∈ c'.reactions ++ Notice.deeds ⟨e, reaction, payload⟩,
        d.ended = true := by
      simpa [reactions, Relay.log] using hended
    have hboth := List.forall_mem_append.mp hall
    have hrun := hk hboth.2 hboth.1 hand (h.of_eq rfl rfl)
    exact hrun.of_eq rfl rfl

theorem guards_busy (scope : Scope) : Guards scope Courier.busy :=
  ⟨Courier.steady_busy, fun _ _ _ _ _ h => h⟩

theorem guards_deliver (hr : scope.record .remove = false) : Guards scope deliver :=
  ⟨steady_deliver scope, fun _ hp =>
    (deliver_spec (lawful_keepsCover (guards_busy scope) hr) telling_keepsCover hp).2⟩

/-- A cache at rest in which everything is covered is in order. -/
theorem Covered.orderly (h : c.Covered []) (hevents : c.engine.buffers.events = [])
    (hlock : c.lockHeld = false) (hqueue : c.relay.queue = [])
    (hpublished : c.published = c.engine.deque.weightedSize) (hfits : c.published ≤ c.capacity) :
    c.Orderly c.engine.deque.toList := by
  have hacc : c.engine.Accounted [] := by simpa [hevents] using h.accounted
  have hstatus : ∀ buffer ∈ c.engine.buffers.stripes, buffer.status = .idle := by
    intro buffer hb
    have hq : buffer.queue = [] := List.flatMap_eq_nil_iff.mp hevents buffer hb
    simpa [hq] using h.sound buffer hb
  have hclosed := Deque.Ring.closed hacc.deque
  refine ⟨hlock, Buffers.settled_iff.mpr ⟨hevents, hstatus⟩, hqueue, hclosed, ?_, ?_, ?_,
    hpublished.trans hclosed.weightedSize, hfits⟩
  · intro key id hk
    have hid : id ∈ c.engine.deque.toList.map (·.node) := (hacc.perm_nodes (by simp)).mem_iff.mp
      (hacc.store.mem_nodes_iff.mpr (hacc.store.eq_key hk))
    exact List.count_eq_one_of_mem hclosed.nodup_nodes hid
  · intro l hl
    obtain ⟨held, hh, _⟩ := hacc.exists_held (by simp) hl
    exact (hacc.mapped l.node).mpr (by simp [hh])
  · intro l hl
    obtain ⟨held, hh, hw⟩ := hacc.exists_held (by simp) hl
    exact ⟨held, hh, hw, hw ▸ h.weighed l.node held hh⟩

end Cache

def Undisturbed (ds : List Deed) (c c' : Cache) : Prop :=
  ds = [] → c'.reactions = c.reactions → ∃ relay, c' = { c with relay }

namespace Cache

variable {c c' : Cache} {scope : Scope}

theorem lawful_undisturbed (scope : Scope) : Lawful scope Courier.busy Undisturbed where
  refl c _ _ := ⟨c.relay, rfl⟩
  trans := by
    intro ds ds' c c' c'' h h' hu hu' hds hreactions
    obtain ⟨later, hlater⟩ := h.reactions_eq
    obtain ⟨later', hlater'⟩ := h'.reactions_eq
    obtain ⟨hd, hd'⟩ := List.append_eq_nil_iff.mp hds
    rw [hlater', hlater, List.append_assoc, List.append_right_eq_self] at hreactions
    obtain ⟨rfl, rfl⟩ := List.append_eq_nil_iff.mp hreactions
    obtain ⟨relay, rfl⟩ := hu hd (hlater.trans (List.append_nil _))
    obtain ⟨relay', rfl⟩ := hu' hd' (hlater'.trans (List.append_nil _))
    exact ⟨relay', rfl⟩
  call _ _ _ hds := by cases hds
  record _ _ hds := by cases hds
  hold := by
    intro ds c c' _ _ hu hds hreactions
    obtain ⟨relay, rfl⟩ := hu hds hreactions
    exact ⟨relay, rfl⟩

theorem telling_undisturbed : Telling Undisturbed where
  away := by
    intro c c' l _ hu hds hreactions
    obtain ⟨relay, rfl⟩ := hu hds hreactions
    exact ⟨{ relay with listener := l }, rfl⟩
  notice := by
    intro e rest reaction payload c c' _ hevolves hu _ hreactions
    obtain ⟨later, hlater⟩ := hevolves.reactions_eq
    have hall : c'.reactions ++ Notice.deeds ⟨e, reaction, payload⟩ = c.reactions := by
      simpa [reactions, Relay.log] using hreactions
    have hsame : (c.dequeue rest).reactions = c.reactions := rfl
    rw [hlater, hsame, List.append_assoc, List.append_right_eq_self] at hall
    obtain ⟨rfl, hnone⟩ := List.append_eq_nil_iff.mp hall
    obtain ⟨relay, rfl⟩ := hu hnone (hlater.trans (List.append_nil _))
    exact ⟨_, rfl⟩

/-- A clean-up on a free lock during which nobody makes a call leaves a cache that passes its
check. -/
theorem Covered.check_drain (h : c.Covered []) (hp : c.Proper scope.Allows)
    (hlock : c.lockHeld = false) (hease : c.AtEase)
    (hquiet : (c.drain deliver).reactions = c.reactions) : (c.drain deliver).check = .ok () := by
  obtain ⟨hdrained, hfits⟩ := h.drained
  have hp' := (Evolves.drained c).proper hp
  have hundisturbed :=
    (deliver_spec (lawful_undisturbed scope) telling_undisturbed hp').2 rfl
      (hquiet.trans (by rw [reactions, reactions, notices_drained]))
  obtain ⟨relay, hsame⟩ := hundisturbed
  have hqueue := (hease.drain hp).queue
  rw [drain, hsame] at hqueue ⊢
  refine Orderly.check_eq_ok (Covered.orderly (hdrained.of_eq rfl rfl) ?_ ?_ hqueue ?_ ?_)
    hdrained.accounted.store
  · rw [buffers_drained h.sound, Buffers.events_emptied]
  · rw [lockHeld_drained, hlock]
  · exact published_drained c
  · rw [capacity_drained]
    exact hfits

end Cache

/-- Everything that threads can do to a cache through its interface, and extra events of mapped
nodes other than removals. -/
def Scope.concurrent : Scope := { hold := true, record := fun kind => kind ≠ .remove }

namespace Cache

variable {s : Settings} {c fresh : Cache} {ops : List Op}

/-- With a free lock a clean-up drains. -/
theorem perform_cleanUp (hlock : c.lockHeld = false) :
    (perform [.call .cleanUp] c).2 = c.drain deliver := by
  rw [(perform_eq [.call .cleanUp] c).2]
  simp only [Op.runAll, Op.run, run_cleanUp deliver hlock]

/-- Quiescent consistency: however calls ran, once each has come to its end, a clean-up in which no
reaction makes a call leaves a cache that passes its check. -/
theorem check_after_cleanUp (hbuild : s.build = .ok fresh)
    (hscripts : ∀ l ∈ s.listener, l.Stocks Scope.concurrent.Allows)
    (hops : Op.allWithin .concurrent ops = true)
    (hreturned : ∀ d ∈ (perform ops fresh).1.flatMap Report.deeds, d.returned = true)
    (hquiet : (perform [.call .cleanUp] (perform ops fresh).2).1.flatMap
      (·.notices.flatMap Notice.deeds) = []) :
    (perform [.call .cleanUp] (perform ops fresh).2).2.check = .ok () := by
  obtain ⟨_, rfl⟩ := Settings.eq_empty_of_build hbuild
  have hguards : Guards .concurrent deliver := guards_deliver rfl
  have hp := Settings.proper_empty (P := Scope.concurrent.Allows) hscripts
  obtain ⟨hevolves, hkeeps⟩ := perform_spec (lawful_keepsCover hguards rfl) hops hp
  obtain ⟨hsteps, hreactions⟩ := forall_deeds (notices_perform hops hp)
    fun d hd => Deed.ended_of_returned (hreturned d hd)
  have hcovered := hkeeps hsteps hreactions [] s.covered_empty
  have hease := (atEase_empty s).perform hops hp
  have hp' := hevolves.proper hp
  have hlock : (perform ops s.empty).2.lockHeld = false := hevolves.lock
  have hcleanUp : Op.allWithin .concurrent [.call .cleanUp] = true := rfl
  have hlast := notices_perform hcleanUp hp'
  rw [perform_cleanUp hlock] at hlast ⊢
  refine hcovered.check_drain hp' hlock hease ?_
  rw [reactions, hlast, List.flatMap_append, List.flatMap_assoc, hquiet]
  exact List.append_nil _

/-- The caller has the sixth buffer. What a probe records in the fourth is replayed before. -/
def crowded : Settings :=
  { capacity := 2, thread := 5, listener := some { scripts := [("a", [[.call (.put "z" "9")]])] } }

def crowd : List Op :=
  [.call (.put "a" "1"),
    .hold [.call (.put "b" "2"), .call (.put "c" "3"), .probe (.record "c" 3 .add), .call (.get "b")],
    .interrupted (.put "d" "4") [.call (.put "d" "5"), .call (.remove "c")],
    .contended [.call (.get "a")]]

theorem check_after_cleanUp_crowd :
    (perform [.call .cleanUp] (perform crowd crowded.empty).2).2.check = .ok () := by
  have hscripts : ∀ l ∈ crowded.listener, l.Stocks Scope.concurrent.Allows := by
    simp [crowded, Listener.Stocks, Scope.Allows, Op.allWithin, Op.within, Scope.concurrent]
  have hreturned :
      ((perform crowd crowded.empty).1.flatMap Report.deeds).all (·.returned) = true := by cbv
  have hquiet : (perform [.call .cleanUp] (perform crowd crowded.empty).2).1.flatMap
      (·.notices.flatMap Notice.deeds) = [] := by cbv
  exact check_after_cleanUp (s := crowded) rfl hscripts rfl (List.all_eq_true.mp hreturned) hquiet

end Cache

end BoundedCache
