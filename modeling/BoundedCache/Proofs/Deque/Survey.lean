import BoundedCache.Proofs.Deque.Roll
import BoundedCache.Proofs.Deque.Validate

namespace BoundedCache.Deque

variable {d d' : Deque} {s t slot : Slot} {seen : List Slot} {tally : Tally} {n : Nat}
  {f : Link → Link} {new : Link} {id : NodeId} {item : NodeId × Weight} {nodes : List NodeId}

/-- Every link points into the arena. What the links lead to is left open. -/
structure Enclosed (d : Deque) : Prop where
  sentinel : d.InArena 0
  next : ∀ s, d.InArena s → d.InArena (d.next s)
  prev : ∀ s, d.InArena s → d.InArena (d.prev s)

namespace Enclosed

/-- A slot beyond the arena reads as an empty link, and that points to the sentinel. -/
theorem inArena_link (h : d.Enclosed) (s : Slot) :
    d.InArena (d.next s) ∧ d.InArena (d.prev s) := by
  by_cases hs : d.InArena s
  · exact ⟨h.next s hs, h.prev s hs⟩
  · have hlink : d.link s = {} := by
      rw [link, Array.getElem?_eq_none (Nat.le_of_not_lt hs), Option.getD_none]
    rw [Deque.next, Deque.prev, hlink]
    exact ⟨h.sentinel, h.sentinel⟩

/-- In an arena that has not shrunk, links are enclosed that point where one of them pointed or
into the arena. -/
theorem of_link (h : d.Enclosed) (hsize : d.links.size ≤ d'.links.size)
    (hl : ∀ t, d'.link t = d.link t ∨
      (d'.InArena (d'.link t).next ∧ d'.InArena (d'.link t).prev)) : d'.Enclosed := by
  have hgrown : ∀ t, d.InArena t → d'.InArena t := fun t ht => Nat.lt_of_lt_of_le ht hsize
  have hlink : ∀ t, d'.InArena (d'.link t).next ∧ d'.InArena (d'.link t).prev := by
    intro t
    rcases hl t with he | hnew
    · rw [he]
      exact ⟨hgrown _ (h.inArena_link t).1, hgrown _ (h.inArena_link t).2⟩
    · exact hnew
  exact ⟨hgrown 0 h.sentinel, fun t _ => (hlink t).1, fun t _ => (hlink t).2⟩

theorem of_links (h : d.Enclosed) (hl : d'.links = d.links) : d'.Enclosed :=
  h.of_link (Nat.le_of_eq (congrArg Array.size hl.symm)) fun t => .inl (by rw [link, hl, link])

/-- A write keeps the links enclosed if it does so with the one link it writes. -/
theorem modify (h : d.Enclosed)
    (hf : d.InArena (f (d.link s)).next ∧ d.InArena (f (d.link s)).prev) :
    (d.modify s f).Enclosed := by
  by_cases hs : d.InArena s
  · refine h.of_link (by simp) fun t => ?_
    rw [link_modify d s t f hs]
    by_cases ht : t = s
    · rw [if_pos ht]
      exact .inr (by simpa [InArena] using hf)
    · exact .inl (if_neg ht)
  · rwa [modify_of_not_inArena hs]

theorem setNext (h : d.Enclosed) (ht : d.InArena t) : (d.setNext s t).Enclosed :=
  h.modify ⟨ht, (h.inArena_link s).2⟩

theorem setPrev (h : d.Enclosed) (ht : d.InArena t) : (d.setPrev s t).Enclosed :=
  h.modify ⟨(h.inArena_link s).1, ht⟩

theorem detach (h : d.Enclosed) (s : Slot) : (d.detach s).Enclosed := by
  obtain ⟨hnext, hprev⟩ := h.inArena_link s
  have hjoined : (d.setNext (d.prev s) (d.next s)).Enclosed := h.setNext hnext
  exact hjoined.setPrev (inArena_setNext.mpr hprev)

theorem attachBack (h : d.Enclosed) (hs : d.InArena s) : (d.attachBack s).Enclosed := by
  have hback : (d.setPrev s (d.prev 0)).Enclosed := h.setPrev (h.inArena_link 0).2
  have hends := hback.setNext (s := s) hback.sentinel
  have htail := hends.setNext (s := d.prev 0) (t := s) (by simpa using hs)
  exact htail.setPrev (by simpa using hs)

end Enclosed

/-- The freed slots lie in the arena too, so that the next link finds room there. -/
structure Housed (d : Deque) : Prop extends Enclosed d where
  free : ∀ s ∈ d.free, d.InArena s

namespace Housed

theorem empty : Housed {} := by
  have hlink : ∀ s, ({} : Deque).link s = {} := fun s => by
    cases s <;> simp [link]
  have hzero : ({} : Deque).InArena 0 := by decide
  refine ⟨⟨hzero, fun s _ => ?_, fun s _ => ?_⟩, by simp⟩
  · rwa [Deque.next, hlink]
  · rwa [Deque.prev, hlink]

/-- A link finds room in the arena, in a freed slot or in a new one. -/
theorem room (h : d.Housed) (new : Link) :
    d.links.size ≤ (d.place new).2.links.size ∧ (d.place new).2.InArena (d.place new).1 ∧
      ∀ s ∈ (d.place new).2.free, (d.place new).2.InArena s := by
  have hfree := h.free
  unfold Deque.place
  cases hf : d.free with
  | nil => simp [InArena]
  | cons slot rest =>
    rw [hf] at hfree
    obtain ⟨hslot, hrest⟩ := List.forall_mem_cons.mp hfree
    exact ⟨by simp, by simpa [InArena] using hslot, by simpa [InArena] using hrest⟩

theorem place (h : d.Housed) (hnext : new.next = 0) (hprev : new.prev = 0) :
    (d.place new).2.Housed := by
  obtain ⟨hsize, -, hfree⟩ := h.room new
  refine ⟨h.toEnclosed.of_link hsize fun t => ?_, hfree⟩
  rw [link_place h.free new t]
  by_cases ht : t = (d.place new).1
  · have hzero : (d.place new).2.InArena 0 := Nat.lt_of_lt_of_le h.sentinel hsize
    rw [if_pos ht, hnext, hprev]
    exact .inr ⟨hzero, hzero⟩
  · exact .inl (if_neg ht)

theorem pushBack (h : d.Housed) (id : NodeId) (w : Weight) : (d.pushBack id w).2.Housed := by
  have hplaced : (d.place { node := some id, weight := w }).2.Housed := h.place rfl rfl
  have hlinked := hplaced.toEnclosed.attachBack (h.room { node := some id, weight := w }).2.1
  unfold Deque.pushBack
  refine ⟨hlinked.of_links rfl, fun s hs => ?_⟩
  have hin := hplaced.free s (by simpa using hs)
  simpa [InArena] using hin

theorem unlink (h : d.Housed) (hu : d.unlink s = some (item, d')) : d'.Housed := by
  obtain ⟨id, hnode, he⟩ := Option.map_eq_some_iff.mp hu
  obtain ⟨hfree, hsize⟩ := arena_unlink hu
  have hs : d.InArena s := inArena_of_node hnode
  cases he
  have hopen := h.toEnclosed.detach s
  have hemptied : ((d.detach s).modify s ({ · with node := none, weight := 0 })).Enclosed :=
    hopen.modify (hopen.inArena_link s)
  refine ⟨hemptied.of_links rfl, fun t ht => ?_⟩
  rw [hfree] at ht
  rw [InArena, hsize]
  rcases List.mem_cons.mp ht with rfl | ht
  · exact hs
  · exact h.free t ht

theorem moveToBack (h : d.Housed) (s : Slot) : (d.moveToBack s).Housed := by
  obtain ⟨hfree, hsize⟩ := arena_moveToBack d s
  refine ⟨?_, fun t ht => by rw [InArena, hsize]; exact h.free t (hfree ▸ ht)⟩
  unfold Deque.moveToBack
  split
  · exact h.toEnclosed
  · split
    · rename_i hs
      exact (h.toEnclosed.detach s).attachBack (by simpa [InArena] using hs)
    · exact h.toEnclosed

theorem setWeight (h : d.Housed) (s : Slot) (w : Weight) : (d.setWeight s w).Housed := by
  obtain ⟨hfree, hsize⟩ := arena_setWeight d s w
  refine ⟨?_, fun t ht => by rw [InArena, hsize]; exact h.free t (hfree ▸ ht)⟩
  unfold Deque.setWeight
  split
  · have hweighed : (d.modify s ({ · with weight := w })).Enclosed :=
      h.toEnclosed.modify (h.inArena_link s)
    exact hweighed.of_links rfl
  · exact h.toEnclosed

theorem popUpTo (h : d.Housed) (hd : popUpTo n d = (nodes, d')) : d'.Housed := by
  induction n generalizing d nodes with
  | zero =>
    cases hd
    exact h
  | succ n ih =>
    unfold Deque.popUpTo at hd
    split at hd
    · cases hd
      exact h
    · rename_i node d1 hpop
      cases hd
      unfold popFront? at hpop
      split at hpop
      · cases hpop
      · rename_i slot _
        obtain ⟨⟨item, d2⟩, hunlink, he⟩ := Option.map_eq_some_iff.mp hpop
        cases he
        exact ih (h.unlink hunlink) rfl

/-- Whatever is asked, of a freed slot or for a node that is linked already, links and freed slots
stay in the arena. -/
theorem ask (h : d.Housed) (request : Request) : (d.ask request).2.Housed := by
  cases request with
  | pushBack id w => exact h.pushBack id w
  | unlink s =>
    cases hu : d.unlink s with
    | none => simpa only [Deque.ask, hu] using h
    | some taken => simpa only [Deque.ask, hu] using h.unlink hu
  | moveToBack s => exact h.moveToBack s
  | setWeight s w => exact h.setWeight s w
  | drain => exact h.popUpTo rfl

end Housed

def asked (requests : List Request) : Deque :=
  requests.foldl (fun d request => (d.ask request).2) {}

/-- No use of a deque, and no misuse, leads out of its arena. -/
theorem enclosed_asked (requests : List Request) : (asked requests).Enclosed := by
  have hall : ∀ d : Deque, d.Housed →
      (requests.foldl (fun d request => (d.ask request).2) d).Housed := by
    induction requests with
    | nil => exact fun d h => h
    | cons request rest ih => exact fun d h => ih _ (h.ask request)
  exact (hall {} Housed.empty).toEnclosed

/-- What the check reads at a slot lies in the arena: the slot and the slots next to it. -/
def Reads (d : Deque) (slot : Slot) : Prop :=
  d.InArena slot ∧ d.InArena (d.prev slot) ∧ d.InArena (d.next slot)

/-- The walk of the check from a slot, past the slots of `seen` that it has marked. No bound stops
it: it comes home, meets a marked slot, finds a fault, or goes on. -/
inductive Surveys (d : Deque) : List Slot → Tally → Slot → Except Fault Tally → Prop where
  | home (seen : List Slot) (tally : Tally) : Surveys d seen tally 0 (.ok tally)
  | loop {seen : List Slot} {slot : Slot} (tally : Tally) (away : slot ≠ 0)
      (inArena : d.InArena slot) (marked : slot ∈ seen) :
      Surveys d seen tally slot (.error (.loop slot))
  | fault {seen : List Slot} {slot : Slot} {fault : Fault} (tally : Tally) (away : slot ≠ 0)
      (unmarked : slot ∉ seen) (reads : d.Reads slot) (found : d.linkFault? slot = some fault) :
      Surveys d seen tally slot (.error fault)
  | onward {seen : List Slot} {slot : Slot} {tally : Tally} {result : Except Fault Tally}
      (away : slot ≠ 0) (unmarked : slot ∉ seen) (reads : d.Reads slot)
      (sound : d.linkFault? slot = none)
      (rest : Surveys d (slot :: seen)
        ⟨tally.count + 1, tally.weight + (d.link slot).weight.toNat⟩ (d.next slot) result) :
      Surveys d seen tally slot result

inductive Validates (d : Deque) : Except Fault Unit → Prop where
  | sentinelBroken (apart : ¬ (d.next (d.prev 0) = 0 ∧ d.prev (d.next 0) = 0)) :
      Validates d (.error .sentinelBroken)
  | broken {fault : Fault} (joined : d.next (d.prev 0) = 0 ∧ d.prev (d.next 0) = 0)
      (walk : d.Surveys [] {} (d.next 0) (.error fault)) : Validates d (.error fault)
  | lengthDiffers {tally : Tally} (joined : d.next (d.prev 0) = 0 ∧ d.prev (d.next 0) = 0)
      (walk : d.Surveys [] {} (d.next 0) (.ok tally)) (differs : tally.count ≠ d.length) :
      Validates d (.error (.lengthDiffers d.length tally.count))
  | weightDiffers {tally : Tally} (joined : d.next (d.prev 0) = 0 ∧ d.prev (d.next 0) = 0)
      (walk : d.Surveys [] {} (d.next 0) (.ok tally)) (counted : tally.count = d.length)
      (differs : tally.weight ≠ d.weightedSize) :
      Validates d (.error (.weightDiffers d.weightedSize tally.weight))
  | valid {tally : Tally} (joined : d.next (d.prev 0) = 0 ∧ d.prev (d.next 0) = 0)
      (walk : d.Surveys [] {} (d.next 0) (.ok tally)) (counted : tally.count = d.length)
      (weighed : tally.weight = d.weightedSize) : Validates d (.ok ())

/-- A walk comes to one result. -/
theorem Surveys.unique {result other : Except Fault Tally} (h : d.Surveys seen tally slot result)
    (ho : d.Surveys seen tally slot other) : other = result := by
  induction h with
  | home seen tally => cases ho <;> first | rfl | contradiction
  | loop tally away inArena marked => cases ho <;> first | rfl | contradiction
  | fault tally away unmarked reads found =>
    cases ho with
    | home => contradiction
    | loop => contradiction
    | fault _ _ _ _ again => rw [Option.some.inj (again.symm.trans found)]
    | onward _ _ _ sound => rw [sound] at found; cases found
  | onward away unmarked reads sound rest ih =>
    cases ho with
    | home => contradiction
    | loop => contradiction
    | fault _ _ _ _ found => rw [sound] at found; cases found
    | onward _ _ _ _ again => exact ih again

/-- With as many steps left as there are slots to mark, the walk of the check is the walk that
nothing bounds: the steps never run out. -/
theorem Enclosed.surveys_survey (h : d.Enclosed) (hslot : d.InArena slot)
    (hmarked : (0 :: seen).Nodup) (hseen : ∀ s ∈ 0 :: seen, d.InArena s)
    (hn : n + seen.length = d.links.size) :
    d.Surveys seen tally slot (d.survey n seen tally slot) := by
  induction n generalizing seen tally slot with
  | zero =>
    have hsub : 0 :: seen ⊆ List.range d.links.size :=
      fun s hs => List.mem_range.mpr (hseen s hs)
    have hfull := List.Nodup.length_le_of_subset hmarked hsub
    rw [List.length_cons, List.length_range] at hfull
    omega
  | succ n ih =>
    unfold survey
    by_cases h0 : slot = 0
    · rw [if_pos h0, h0]
      exact .home seen tally
    · rw [if_neg h0]
      by_cases hm : slot ∈ seen
      · rw [if_pos hm]
        exact .loop tally h0 hslot hm
      · rw [if_neg hm]
        have hreads : d.Reads slot := ⟨hslot, h.prev slot hslot, h.next slot hslot⟩
        split
        · rename_i fault hfault
          exact .fault tally h0 hm hreads hfault
        · rename_i hsound
          refine .onward h0 hm hreads hsound (ih hreads.2.2 ?_ ?_ ?_)
          · grind
          · grind
          · rw [List.length_cons]
            omega

/-- The walk of the check starts with nothing marked, and so it has steps enough. -/
theorem Enclosed.surveys_from_head (h : d.Enclosed) :
    d.Surveys [] {} (d.next 0) (d.survey d.links.size [] {} (d.next 0)) :=
  h.surveys_survey (h.next 0 h.sentinel) (by simp) (by simpa using h.sentinel) (by simp)

/-- The check runs to what it comes to without the bound, and to nothing else. -/
theorem Enclosed.validates_iff {result : Except Fault Unit} (h : d.Enclosed) :
    d.Validates result ↔ result = d.validate := by
  have hwalk := h.surveys_from_head
  constructor
  · intro hv
    cases hv with
    | sentinelBroken apart =>
      have hbroken := not_and_or.mp apart
      rw [validate, if_pos hbroken]
    | broken joined walk => simp [validate, joined, walk.unique hwalk]
    | lengthDiffers joined walk differs => simp [validate, joined, walk.unique hwalk, differs]
    | weightDiffers joined walk counted differs =>
      simp [validate, joined, walk.unique hwalk, counted, differs]
    | valid joined walk counted weighed =>
      simp [validate, joined, walk.unique hwalk, counted, weighed]
  · rintro rfl
    unfold validate
    by_cases hjoined : d.next (d.prev 0) = 0 ∧ d.prev (d.next 0) = 0
    · rw [if_neg (by simp [hjoined])]
      cases hs : d.survey d.links.size [] {} (d.next 0) with
      | error fault => exact .broken hjoined (hs ▸ hwalk)
      | ok tally =>
        rw [hs] at hwalk
        by_cases hcount : tally.count = d.length
        · by_cases hweight : tally.weight = d.weightedSize
          · simpa [hcount, hweight] using Validates.valid hjoined hwalk hcount hweight
          · simpa [hcount, hweight] using Validates.weightDiffers hjoined hwalk hcount hweight
        · simpa [hcount] using Validates.lengthDiffers hjoined hwalk hcount
    · rw [if_pos (not_and_or.mp hjoined)]
      exact .sentinelBroken hjoined

/-- On links of any shape that stay in the arena, the check ends without its bound, in one result
and without a read beyond the arena. That result is good just in case the links lead from the
sentinel through distinct slots and back, each holding a node that records it, with links that
agree in both directions, and length and weighted size are those of these slots. -/
theorem validate_exact (h : d.Enclosed) :
    (∀ result, d.Validates result ↔ result = d.validate) ∧
      (d.validate = .ok () ↔ ∃ xs, d.Closed xs) :=
  ⟨fun _ => h.validates_iff, validate_eq_ok_iff⟩

/-- A freed slot moved to the back, and a node linked twice. -/
def misuse : List Request :=
  [.pushBack 7 1, .pushBack 8 2, .unlink 1, .moveToBack 1, .pushBack 9 4, .pushBack 9 3]

theorem validate_exact_misuse : (asked misuse).Enclosed ∧
    (asked misuse).Validates (.error (.brokenLink 2)) ∧ ¬ ∃ xs, (asked misuse).Closed xs := by
  obtain ⟨hresult, hok⟩ := validate_exact (enclosed_asked misuse)
  have hv : (asked misuse).validate = .error (.brokenLink 2) := by decide
  exact ⟨enclosed_asked misuse, (hresult _).mpr hv.symm, hok.not.mp (by simp [hv])⟩

end BoundedCache.Deque
