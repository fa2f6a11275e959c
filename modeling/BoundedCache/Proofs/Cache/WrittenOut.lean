import BoundedCache.Proofs.Cache.Deliver
import BoundedCache.Proofs.Cache.Veil

namespace BoundedCache

def Listener.writtenOut (l : Listener (List Op)) : Listener (List Op) :=
  { l with scripts := l.scripts.map fun p => (p.1, p.2.map Op.writeOutAll) }

def Settings.writtenOut (s : Settings) : Settings :=
  { s with listener := s.listener.map Listener.writtenOut }

namespace Listener

variable {l : Listener (List Op)}

theorem stocks_writtenOut (l : Listener (List Op)) :
    l.writtenOut.Stocks (Op.allWritten · = true) := by
  intro p hp script hs
  obtain ⟨q, _, rfl⟩ := List.mem_map.mp hp
  obtain ⟨ops, _, rfl⟩ := List.mem_map.mp hs
  exact Op.allWritten_writeOutAll ops

theorem writtenOut_writtenOut (l : Listener (List Op)) : l.writtenOut.writtenOut = l.writtenOut := by
  simp only [writtenOut, List.map_map, Listener.mk.injEq, true_and]
  refine List.map_congr_left fun p _ => ?_
  simp [Op.writeOutAll_writeOutAll]

theorem supply_writtenOut (l : Listener (List Op)) : l.writtenOut.supply = l.supply := by
  simp [supply, writtenOut, List.length_flatMap, List.map_map, Function.comp_def]

theorem nextScript_writtenOut (key : Key) (scripts : List (Key × List (List Op))) :
    nextScript key (scripts.map fun p => (p.1, p.2.map Op.writeOutAll)) =
      (nextScript key scripts).map fun next =>
        (Op.writeOutAll next.1, next.2.map fun p => (p.1, p.2.map Op.writeOutAll)) := by
  induction scripts with
  | nil => rfl
  | cons p rest ih =>
    obtain ⟨k, own⟩ := p
    rw [List.map_cons]
    unfold nextScript
    dsimp only
    split
    · cases own <;> rfl
    · rw [ih]
      cases nextScript key rest <;> rfl

/-- The same reaction, written out. -/
theorem respond_writtenOut (l : Listener (List Op)) (e : Entry) :
    l.writtenOut.respond e =
      ({ (l.respond e).1 with script := (l.respond e).1.script.map Op.writeOutAll },
        (l.respond e).2.writtenOut) := by
  have hfailing : l.writtenOut.failing = l.failing := rfl
  have hscripts : l.writtenOut.scripts = l.scripts.map fun p => (p.1, p.2.map Op.writeOutAll) := rfl
  unfold respond
  rw [hfailing, hscripts, nextScript_writtenOut]
  cases l.failing.lookup e.key with
  | some payload => rfl
  | none => cases nextScript e.key l.scripts <;> rfl

end Listener

namespace Cache

def scrub : Relay.Edit := fun r =>
  { r with listener := r.listener.map Listener.writtenOut, notices := [] }

theorem veil_scrub : Relay.Veil scrub where
  enabled _ := rfl
  queue _ := rfl
  requeue _ _ := rfl
  failures _ := rfl
  supply r := by
    rw [scrub, Option.map_map]
    exact congrArg (Option.map · r.listener) (funext Listener.supply_writtenOut)

theorem scrub_scrub (r : Relay (Listener (List Op)) (List Step)) : scrub (scrub r) = scrub r := by
  simp only [scrub, Option.map_map]
  congr 2
  exact funext Listener.writtenOut_writtenOut

variable {c c₁ : Cache} {l l₁ : Listener (List Op)} {e : Entry} {script script₁ : List Op}

/-- Two caches that look the same under the veil differ in their relays alone. -/
theorem eq_of_veiled (h : c₁.veiled scrub = c.veiled scrub) :
    c₁ = { c with relay := c₁.relay } := by
  obtain ⟨engine, relay, weigher, capacity, lockHeld, published, counters, drains⟩ := c
  cases c₁
  simp only [veiled, Cache.mk.injEq] at h ⊢
  exact ⟨h.1, trivial, h.2.2⟩

/-- A reaction is the same under the veil, in full and written out. -/
theorem reaction_scrub (h : c₁.veiled scrub = c.veiled scrub)
    (hs : Op.writeOutAll script₁ = Op.writeOutAll script) :
    (c₁.reaction script₁).2.veiled scrub = (c.reaction script).2.veiled scrub := by
  have hunder (script : List Op) (c : Cache) : (c.reaction script).2.veiled scrub =
      (Op.runAll Courier.busy (Op.writeOutAll script) (c.veiled scrub)).2 := by
    rw [Op.runAll_writeOutAll, Op.runAll_veiled veil_scrub Courier.blind_busy]
    rfl
  rw [hunder, hunder, h, hs]

/-- A call of the listener is the same under the veil. -/
theorem tell_scrub (h : c₁.veiled scrub = c.veiled scrub) (hl : l₁.writtenOut = l.writtenOut) :
    (c₁.tell l₁ e).veiled scrub = (c.tell l e).veiled scrub := by
  have hlogged {d d₁ : Cache} (hd : d₁.veiled scrub = d.veiled scrub)
      (reaction reaction₁ : Option (List Step)) (payload : Option Payload) :
      veiled scrub { d₁ with relay := d₁.relay.log ⟨e, reaction₁, payload⟩ } =
        veiled scrub { d with relay := d.relay.log ⟨e, reaction, payload⟩ } :=
    congrArg (fun d : Cache => { d with relay := { d.relay with
      failures := if payload.isSome then d.relay.failures + 1 else d.relay.failures } }) hd
  have hrespond := l.respond_writtenOut e
  rw [← hl, l₁.respond_writtenOut e] at hrespond
  obtain ⟨hresponse, -⟩ := Prod.mk.inj hrespond
  obtain ⟨hscript, hpayload⟩ := Response.mk.inj hresponse
  cases hs : (l.respond e).1.script with
  | none =>
    rw [hs, Option.map_none, Option.map_eq_none_iff] at hscript
    rw [tell_of_silent hs, tell_of_silent hscript, hpayload]
    exact hlogged h _ _ _
  | some script =>
    rw [hs, Option.map_some, Option.map_eq_some_iff] at hscript
    obtain ⟨script₁, hs₁, hsame⟩ := hscript
    rw [tell_of_script hs, tell_of_script hs₁, hpayload]
    exact hlogged (reaction_scrub h hsame) _ _ _

theorem accord_scrub : Accord (fun l l₁ => l₁.writtenOut = l.writtenOut)
    (fun c c₁ => c₁.veiled scrub = c.veiled scrub) := by
  constructor
  case queue => exact fun h => congrArg (·.relay.queue) h
  case listener =>
    intro c c₁ h
    have hlistener : c₁.relay.listener.map Listener.writtenOut =
        c.relay.listener.map Listener.writtenOut := congrArg (·.relay.listener) h
    cases hl : c.relay.listener with
    | none =>
      rw [hl, Option.map_none, Option.map_eq_none_iff] at hlistener
      rw [hlistener]
      exact .none
    | some l =>
      rw [hl, Option.map_some, Option.map_eq_some_iff] at hlistener
      obtain ⟨l₁, hl₁, hsame⟩ := hlistener
      rw [hl₁]
      exact .some hsame
  case away => exact fun h => congrArg (withListener none) h
  case back =>
    intro c c₁ l l₁ h hl
    have hback (c : Cache) (l : Listener (List Op)) : (c.withListener (some l)).veiled scrub =
        (c.veiled scrub).withListener (some l.writtenOut) := rfl
    rw [hback, hback, h, hl]
  case respond =>
    intro l l₁ e hl
    have hrespond := l.respond_writtenOut e
    rw [← hl, l₁.respond_writtenOut e] at hrespond
    exact (Prod.mk.inj hrespond).2
  case tell => exact fun h hl _ => tell_scrub (congrArg (dequeue _) h) hl

/-- A delivery is the same under the veil. -/
theorem deliver_scrub (h : c₁.veiled scrub = c.veiled scrub) :
    under scrub c₁.deliver = under scrub c.deliver := by
  obtain ⟨hcount, hafter⟩ := accord_scrub.deliver h
  exact Prod.ext hcount hafter

/-- Operations report the same and lead to the same cache under the veil. -/
theorem runAll_scrub (ops : List Op) (h : c₁.veiled scrub = c.veiled scrub) :
    under scrub (Op.runAll deliver ops c₁) = under scrub (Op.runAll deliver ops c) := by
  have hblind : deliver.Blind scrub fun c => under scrub c.deliver := fun c =>
    deliver_scrub (congrArg (fun r => { c with relay := r }) (scrub_scrub c.relay))
  rw [← Op.runAll_veiled veil_scrub hblind, ← Op.runAll_veiled veil_scrub hblind, h]

/-- Written out, operations and reactions lead to the same cache but for its relay. -/
theorem perform_writtenOut (s : Settings) (ops : List Op) :
    (perform (Op.writeOutAll ops) s.writtenOut.empty).2.veiled scrub =
      (perform ops s.empty).2.veiled scrub := by
  have hempty : s.writtenOut.empty.veiled scrub = s.empty.veiled scrub := by
    have hrelay : scrub (Relay.ofListener (s.listener.map Listener.writtenOut)) =
        scrub (Relay.ofListener s.listener) := by
      cases hl : s.listener with
      | none => rfl
      | some l =>
        simp only [scrub, Relay.ofListener, Option.map_some, Listener.writtenOut_writtenOut,
          Option.isSome_some]
    exact congrArg (fun r => { s.empty with relay := r }) hrelay
  rw [(perform_eq _ _).2, (perform_eq _ _).2, Op.runAll_writeOutAll]
  exact congrArg Prod.snd (runAll_scrub ops hempty)

end Cache

end BoundedCache
