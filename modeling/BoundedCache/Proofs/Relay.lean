import Mathlib.Data.List.Basic
import BoundedCache.Relay

namespace BoundedCache

namespace Relaying

variable {W L α σ : Type} [Relaying W L α] [Listens L σ] {perform : σ → W → α × W} {l : L} {w : W}
  {e : Entry} {rest : List Entry}

theorem deliverAll_of_nil (h : (relay w).queue = []) : deliverAll perform l w = (0, l, w) := by
  rw [deliverAll]
  split
  · rfl
  · rename_i hq
    cases h.symm.trans hq

theorem deliverAll_of_cons (h : (relay w).queue = e :: rest) :
    deliverAll perform l w =
      let later := deliverAll perform (Listens.respond l e).2
        (call perform e (Listens.respond l e).1 (setRelay { relay w with queue := rest } w))
      (later.1 + 1, later.2) := by
  rw [deliverAll]
  split
  · rename_i hq
    cases h.symm.trans hq
  · rename_i hq
    cases h.symm.trans hq
    rfl

end Relaying

inductive Gesture where
  | enqueue (entry : Entry)
  | deliver

structure Turn where
  gestures : List Gesture := []
  payload : Option Payload := none

def Gesture.queued? : Gesture → Option Entry
  | .enqueue e => some e
  | .deliver => none

namespace Turn

def entries (t : Turn) : List Entry := t.gestures.filterMap Gesture.queued?

def nested (t : Turn) : Nat := t.gestures.countP (·.queued?.isNone)

/-- What the relay notes of it: no delivery within it calls anybody. -/
def notice (t : Turn) (e : Entry) : Notice (List Nat) :=
  ⟨e, some (List.replicate t.nested 0), t.payload⟩

end Turn

/-- What a listener does, given all that it was told of, of the present entry last. -/
abbrev Behaviour := List Entry → Turn

/-- A listener of a given behaviour, which does nothing any more once its patience is at an end. -/
structure Reactive where
  turn : Behaviour
  told : List Entry
  patience : Nat

namespace Reactive

def respond (l : Reactive) (e : Entry) : Response (List Gesture) × Reactive :=
  match l.patience with
  | 0 => ({}, { l with told := l.told ++ [e] })
  | patience + 1 =>
    let turn := l.turn (l.told ++ [e])
    (⟨some turn.gestures, turn.payload⟩, { l with told := l.told ++ [e], patience })

instance : Listens Reactive (List Gesture) where
  respond := respond
  supply l := l.patience
  supply_le l e := by
    unfold respond
    split <;> simp_all
  supply_lt l e h := by
    unfold respond at h ⊢
    split <;> simp_all

end Reactive

namespace Gesture

abbrev Runner := List Gesture → Relay Reactive (List Nat) → List Nat × Relay Reactive (List Nat)

def perform (inner : Runner) :
    Gesture → Relay Reactive (List Nat) → List Nat × Relay Reactive (List Nat)
  | .enqueue e, r => ([], r.enqueue e)
  | .deliver, r =>
    let (n, r) := Relaying.deliver inner r
    ([n], r)

/-- Runs the gestures of one invocation; `inner` runs those of a delivery within it. -/
def performAll (inner : Runner) : Runner
  | [], r => ([], r)
  | g :: rest, r =>
    let (ns, r) := g.perform inner r
    let (ms, r) := performAll inner rest r
    (ns ++ ms, r)

end Gesture

namespace Behaviour

/-- All that was queued in the first `n` invocations or before them, where `history k` is what the
listener was told of in the first `k`. -/
def queued (turn : Behaviour) (queue : List Entry) (history : Nat → List Entry) (n : Nat) :
    List Entry :=
  queue ++ (List.range n).flatMap fun k => (turn (history (k + 1))).entries

def upTo (run : Nat → Entry) (n : Nat) : List Entry := (List.range n).map run

def Unending (turn : Behaviour) (queue : List Entry) (run : Nat → Entry) : Prop :=
  ∀ n, upTo run (n + 1) <+: turn.queued queue (upTo run) n

/-- Even of invocations without end, only finitely many would queue anything. -/
def Finite (turn : Behaviour) (queue : List Entry) : Prop :=
  ∀ run, turn.Unending queue run → ∃ bound, ∀ n, bound ≤ n → (turn (upTo run (n + 1))).entries = []

def ledger (turn : Behaviour) (told : List Entry) : List (Notice (List Nat)) :=
  told.mapIdx fun n e => (turn (told.take (n + 1))).notice e

variable {turn : Behaviour} {queue told waiting rest final : List Entry} {e : Entry} {n : Nat}
  {history history' : Nat → List Entry} {run : Nat → Entry}

theorem upTo_succ (run : Nat → Entry) (n : Nat) : upTo run (n + 1) = upTo run n ++ [run n] := by
  simp [upTo, List.range_succ]

theorem queued_congr (h : ∀ k < n, history' (k + 1) = history (k + 1)) :
    turn.queued queue history' n = turn.queued queue history n := by
  have hflat : ((List.range n).map fun k => (turn (history' (k + 1))).entries) =
      (List.range n).map fun k => (turn (history (k + 1))).entries :=
    List.map_congr_left fun k hk => by rw [h k (List.mem_range.mp hk)]
  simp only [queued, List.flatMap_def, hflat]

theorem queued_succ : turn.queued queue history (n + 1) =
    turn.queued queue history n ++ (turn (history (n + 1))).entries := by
  simp [queued, List.range_succ]

theorem ledger_concat : turn.ledger (told ++ [e]) =
    turn.ledger told ++ [(turn (told ++ [e])).notice e] := by
  have hfront : (told.mapIdx fun n e' => (turn ((told ++ [e]).take (n + 1))).notice e') =
      turn.ledger told :=
    List.mapIdx_eq_mapIdx_iff.mpr fun n hn => by rw [List.take_append_of_le_length hn]
  rw [ledger, List.mapIdx_concat, hfront, List.take_of_length_le (by simp)]

/-- Told of some entries, with others waiting: together they are all that was queued, and each was
queued before it was told of. -/
structure Fits (turn : Behaviour) (queue told waiting : List Entry) : Prop where
  all : told ++ waiting = turn.queued queue told.take told.length
  before : ∀ n < told.length, told.take (n + 1) <+: turn.queued queue told.take n

namespace Fits

theorem nil : turn.Fits queue [] queue where
  all := by simp [queued]
  before := by simp

theorem next (h : turn.Fits queue told (e :: rest)) :
    turn.Fits queue (told ++ [e]) (rest ++ (turn (told ++ [e])).entries) := by
  have hsame (n : Nat) (hn : n ≤ told.length) :
      turn.queued queue (told ++ [e]).take n = turn.queued queue told.take n :=
    queued_congr fun k hk => List.take_append_of_le_length (Nat.le_trans hk hn)
  have hlast : (told ++ [e]).take (told.length + 1) = told ++ [e] :=
    List.take_of_length_le (by simp)
  constructor
  · rw [List.length_append, List.length_singleton, queued_succ, hsame _ (Nat.le_refl _), ← h.all,
      hlast]
    simp
  · intro n hn
    rw [List.length_append, List.length_singleton] at hn
    rw [hsame n (Nat.le_of_lt_succ hn)]
    rcases Nat.lt_succ_iff_lt_or_eq.mp hn with hlt | rfl
    · rw [List.take_append_of_le_length hlt]
      exact h.before n hlt
    · rw [hlast, ← h.all]
      exact ⟨rest, by simp⟩

end Fits

/-- The invocations from a moment on, until nothing waits any more. -/
inductive Ends (turn : Behaviour) : List Entry → List Entry → List Entry → Prop where
  | done (told : List Entry) : turn.Ends told [] told
  | next (told rest final : List Entry) (e : Entry)
      (later : turn.Ends (told ++ [e]) (rest ++ (turn (told ++ [e])).entries) final) :
      turn.Ends told (e :: rest) final

theorem Ends.fits (h : turn.Ends told waiting final) (hf : turn.Fits queue told waiting) :
    turn.Fits queue final [] := by
  induction h with
  | done told => exact hf
  | next told rest final e _ ih => exact ih hf.next

def advance (turn : Behaviour) : List Entry × List Entry → List Entry × List Entry
  | (told, []) => (told, [])
  | (told, e :: rest) => (told ++ [e], rest ++ (turn (told ++ [e])).entries)

def agenda (turn : Behaviour) (queue : List Entry) : Nat → List Entry × List Entry
  | 0 => ([], queue)
  | n + 1 => turn.advance (turn.agenda queue n)

theorem ends_of_agenda (h : turn.Ends (turn.agenda queue n).1 (turn.agenda queue n).2 final) :
    turn.Ends [] queue final := by
  induction n with
  | zero => exact h
  | succ n ih =>
    refine ih ?_
    rw [agenda] at h
    revert h
    rcases turn.agenda queue n with ⟨told, _ | ⟨e, rest⟩⟩ <;> intro h
    · exact h
    · exact .next told rest final e h

section

variable {rest : Nat → List Entry}

theorem agenda_succ (h : ∀ n, (turn.agenda queue n).2 = run n :: rest n) (n : Nat) :
    turn.agenda queue (n + 1) = ((turn.agenda queue n).1 ++ [run n],
      rest n ++ (turn ((turn.agenda queue n).1 ++ [run n])).entries) := by
  rw [agenda]
  have hn := h n
  generalize turn.agenda queue n = now at hn ⊢
  obtain ⟨told, waiting⟩ := now
  dsimp only at hn
  rw [hn]
  rfl

/-- Were there always an entry waiting, the listener would be told of entries without end. -/
theorem agenda_eq_upTo (h : ∀ n, (turn.agenda queue n).2 = run n :: rest n) (n : Nat) :
    (turn.agenda queue n).1 = upTo run n := by
  induction n with
  | zero => rfl
  | succ n ih => rw [agenda_succ h, ih, upTo_succ]

theorem agenda_fits (h : ∀ n, (turn.agenda queue n).2 = run n :: rest n) (n : Nat) :
    turn.Fits queue (upTo run n) (run n :: rest n) := by
  rw [← agenda_eq_upTo h, ← h]
  induction n with
  | zero => exact .nil
  | succ n ih =>
    rw [agenda_succ h]
    exact Fits.next (h n ▸ ih)

theorem unending (h : ∀ n, (turn.agenda queue n).2 = run n :: rest n) :
    turn.Unending queue run := by
  intro n
  have hlength (n : Nat) : (upTo run n).length = n := by simp [upTo]
  have htake (k : Nat) (hk : k ≤ n + 1) : (upTo run (n + 1)).take k = upTo run k := by
    rw [upTo, ← List.map_take, List.take_range, Nat.min_eq_left hk, upTo]
  have hbefore := (agenda_fits h (n + 1)).before n (by rw [hlength]; exact Nat.lt_succ_self n)
  rw [htake _ (Nat.le_refl _), queued_congr fun k hk => htake (k + 1) (by omega)] at hbefore
  exact hbefore

end

/-- If only finitely many invocations queue anything, then at some point nothing waits. -/
theorem exists_ends (h : turn.Finite queue) : ∃ final, turn.Ends [] queue final := by
  by_contra hnever
  have hwaiting (n : Nat) : ∃ e rest, (turn.agenda queue n).2 = e :: rest := by
    rw [← List.ne_nil_iff_exists_cons]
    intro hn
    refine hnever ⟨(turn.agenda queue n).1, ends_of_agenda (n := n) ?_⟩
    rw [hn]
    exact .done _
  choose run rest hrun using hwaiting
  obtain ⟨bound, hbound⟩ := h run (unending hrun)
  -- From the bound on, every invocation leaves one entry less.
  have hshrinks (k : Nat) : (rest (bound + k)).length + k = (rest bound).length := by
    induction k with
    | zero => rfl
    | succ k ih =>
      have hnext := congrArg Prod.snd (agenda_succ hrun (bound + k))
      rw [hrun, agenda_eq_upTo hrun, ← upTo_succ, hbound _ (Nat.le_add_right bound k),
        List.append_nil] at hnext
      have hlength : (rest (bound + (k + 1))).length + 1 = (rest (bound + k)).length :=
        congrArg List.length hnext
      omega
  have := hshrinks ((rest bound).length + 1)
  omega

end Behaviour

namespace Reactive

open Behaviour Gesture

variable {turn : Behaviour} {queue told waiting final : List Entry} {inner : Runner}
  {r : Relay Reactive (List Nat)}

/-- While the listener is away, its gestures queue what they say, and no delivery calls anybody. -/
theorem performAll_eq (inner : Runner) (h : r.listener = none) (he : r.enabled = true)
    (gestures : List Gesture) :
    performAll inner gestures r = (List.replicate (gestures.countP (·.queued?.isNone)) 0,
      { r with queue := r.queue ++ gestures.filterMap queued? }) := by
  induction gestures generalizing r with
  | nil => simp [performAll]
  | cons g rest ih =>
    cases g with
    | enqueue e =>
      have hlater := ih (r := { r with queue := r.queue ++ [e] }) h he
      simp only [performAll, perform, Relay.enqueue_of_enabled he, hlater]
      simp [queued?]
    | deliver =>
      have haway : Relaying.deliver inner r = (0, r) := Relaying.deliver_of_away inner h
      simp only [performAll, perform, haway, ih h he]
      rw [List.countP_cons_of_pos rfl, List.filterMap_cons_none rfl, List.replicate_succ,
        List.singleton_append]

def during (r : Relay Reactive (List Nat)) (turn : Behaviour) (told waiting : List Entry) :
    Relay Reactive (List Nat) where
  enabled := true
  listener := none
  queue := waiting
  failures := r.failures + (turn.ledger told).countP (·.payload.isSome)
  notices := r.notices ++ turn.ledger told

/-- One invocation. -/
theorem call_eq (inner : Runner) (r : Relay Reactive (List Nat)) (turn : Behaviour)
    (told : List Entry) (e : Entry) (rest : List Entry) :
    Relaying.call (performAll inner) e
        ⟨some (turn (told ++ [e])).gestures, (turn (told ++ [e])).payload⟩
        (during r turn told rest) =
      during r turn (told ++ [e]) (rest ++ (turn (told ++ [e])).entries) := by
  have hperform := performAll_eq inner (r := during r turn told rest) rfl rfl
    (turn (told ++ [e])).gestures
  have hpayload : ((turn (told ++ [e])).notice e).payload = (turn (told ++ [e])).payload := rfl
  simp only [Relaying.call, Relaying.react, hperform]
  simp only [Relaying.relay, Relaying.setRelay, Relay.log, during, ledger_concat,
    List.countP_append, List.countP_singleton, hpayload, ← List.append_assoc]
  split <;> rfl

/-- Every entry is told of in its turn, and each invocation has its effect. -/
theorem deliverAll_eq (inner : Runner) (r : Relay Reactive (List Nat))
    (h : turn.Ends told waiting final) : ∃ n, final.length = told.length + n ∧
    ∀ spare, Relaying.deliverAll (performAll inner) ⟨turn, told, spare + n⟩
      (during r turn told waiting) = (n, ⟨turn, final, spare⟩, during r turn final []) := by
  induction h with
  | done told =>
    exact ⟨0, rfl, fun spare => Relaying.deliverAll_of_nil rfl⟩
  | next told rest final e _ ih =>
    obtain ⟨n, hlength, hlater⟩ := ih
    refine ⟨n + 1, by simp [hlength, Nat.add_comm, Nat.add_left_comm], fun spare => ?_⟩
    have hcall := call_eq inner r turn told e rest
    have hlater := hlater spare
    rw [← hcall] at hlater
    have hqueue : (Relaying.relay (during r turn told (e :: rest))).queue = e :: rest := rfl
    refine (Relaying.deliverAll_of_cons hqueue).trans ?_
    exact congrArg (fun done : Nat × Reactive × Relay Reactive (List Nat) => (done.1 + 1, done.2))
      hlater

theorem deliver_eq (h : turn.Ends [] r.queue final) {patience : Nat}
    (hp : final.length ≤ patience) :
    Relaying.deliver (performAll inner)
        { r with enabled := true, listener := some ⟨turn, [], patience⟩ } =
      (final.length,
        { enabled := true
          listener := some ⟨turn, final, patience - final.length⟩
          queue := []
          failures := r.failures + (turn.ledger final).countP (·.payload.isSome)
          notices := r.notices ++ turn.ledger final }) := by
  obtain ⟨n, hlength, hall⟩ := deliverAll_eq inner r h
  have hn : n = final.length := by simpa using hlength.symm
  have hall := hall (patience - final.length)
  rw [hn, Nat.sub_add_cancel hp] at hall
  have hstart : ({ r with enabled := true, listener := none } : Relay Reactive (List Nat)) =
      during r turn [] r.queue := by
    simp [during, ledger]
  simp only [Relaying.deliver, Relaying.relay, Relaying.setRelay, hstart, hall]
  rfl

/-- Whatever is queued and whatever a listener does in its invocations, as long as only finitely
many of them queue anything: a delivery ends, and the listener is told of all that was queued before
and during the delivery, each entry once and in that order, and of none before it was queued. The
delivery reports how many invocations there were, leaves the queue empty and counts those that
panicked, and every delivery that was started within it has called nobody and reported so. Without a
listener nothing is ever queued or delivered. -/
theorem deliver_exhausts (r : Relay Reactive (List Nat)) (turn : Behaviour)
    (h : turn.Finite r.queue) (inner : Runner) :
    (∃ told, told = turn.queued r.queue told.take told.length ∧
      (∀ n < told.length, told.take (n + 1) <+: turn.queued r.queue told.take n) ∧
      ∀ patience, told.length ≤ patience →
        Relaying.deliver (performAll inner)
            { r with enabled := true, listener := some ⟨turn, [], patience⟩ } =
          (told.length,
            { enabled := true
              listener := some ⟨turn, told, patience - told.length⟩
              queue := []
              failures := r.failures + (turn.ledger told).countP (·.payload.isSome)
              notices := r.notices ++ turn.ledger told })) ∧
    (∀ away : Relay Reactive (List Nat), away.listener = none →
      Relaying.deliver (performAll inner) away = (0, away)) ∧
    ∀ (off : Relay Reactive (List Nat)) (e : Entry), off.enabled = false → off.enqueue e = off := by
  obtain ⟨told, hends⟩ := exists_ends h
  have hfits := hends.fits .nil
  refine ⟨⟨told, ?_, hfits.before, fun patience hp => deliver_eq hends hp⟩,
    fun _ haway => Relaying.deliver_of_away _ haway, fun _ e hoff => Relay.enqueue_of_disabled hoff e⟩
  have hall := hfits.all
  rwa [List.append_nil] at hall

/-- Told for the first time, it queues two entries, starts a delivery after each and panics. -/
def chatty : Behaviour := fun history =>
  if history.length = 1 then
    ⟨[.enqueue ⟨"b", "2"⟩, .deliver, .enqueue ⟨"c", "3"⟩, .deliver], some .other⟩
  else {}

theorem entries_chatty {history : List Entry} (h : history.length ≠ 1) :
    (chatty history).entries = [] := by
  rw [chatty, if_neg h]
  rfl

theorem deliver_exhausts_chatty :
    ∃ listener, Relaying.deliver (performAll fun _ r => ([], r))
        ⟨true, some ⟨chatty, [], 3⟩, [⟨"a", "1"⟩], 0, []⟩ =
      (3, ⟨true, some listener, [], 1, [⟨⟨"a", "1"⟩, some [0, 0], some .other⟩,
        ⟨⟨"b", "2"⟩, some [], none⟩, ⟨⟨"c", "3"⟩, some [], none⟩]⟩) := by
  have hfinite : chatty.Finite [⟨"a", "1"⟩] := fun run _ =>
    ⟨1, fun n hn => entries_chatty (by simp [upTo]; omega)⟩
  obtain ⟨told, hall, _, hdeliver⟩ :=
    (deliver_exhausts ⟨true, none, [⟨"a", "1"⟩], 0, []⟩ chatty hfinite fun _ r => ([], r)).1
  have hpos : 0 < told.length := by rw [hall, queued]; simp
  -- The first invocation queues two entries, the later ones none.
  have hqueued (n : Nat) (hn : n < told.length) :
      chatty.queued [⟨"a", "1"⟩] told.take (n + 1) = [⟨"a", "1"⟩, ⟨"b", "2"⟩, ⟨"c", "3"⟩] := by
    induction n with
    | zero =>
      have hfirst : (told.take 1).length = 1 := by rw [List.length_take]; omega
      rw [queued, List.range_one, List.flatMap_singleton, chatty, if_pos hfirst]
      rfl
    | succ n ih =>
      have hlater : (told.take (n + 1 + 1)).length ≠ 1 := by rw [List.length_take]; omega
      rw [queued_succ, ih (by omega), entries_chatty hlater, List.append_nil]
  obtain ⟨last, hlast⟩ := Nat.exists_eq_add_of_lt hpos
  have hlength : told.length = last + 1 := by omega
  rw [hlength, hqueued last (by omega)] at hall
  subst hall
  exact ⟨_, hdeliver 3 (Nat.le_refl _)⟩

end Reactive

end BoundedCache
