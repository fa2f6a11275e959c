import BoundedCache.Proofs.Buffers

namespace BoundedCache

namespace Buffers

variable {b b' : Buffers} {new : Buffer} {claimed : List Nat} {i j : Nat} {e : Event}

def SoundAt (b : Buffers) (i : Nat) : Prop :=
  b.status i = if b.queue i = [] then .idle else .required

def SoundBut (claimed : List Nat) (b : Buffers) : Prop := ∀ i ∉ claimed, b.SoundAt i

theorem buffer_of_count_le (h : b.count ≤ i) : b.buffer i = {} := by
  rw [buffer, List.getElem?_eq_none h]
  rfl

theorem buffer_setBuffer_of_ne (h : j ≠ i) : (b.setBuffer i new).buffer j = b.buffer j := by
  rw [buffer, setBuffer, List.getElem?_set_ne (Ne.symm h), buffer]

theorem SoundAt.of_buffer (h : b.SoundAt j) (hb : b'.buffer j = b.buffer j) : b'.SoundAt j := by
  rw [SoundAt, status, queue, hb]
  exact h

theorem soundBut_nil : b.SoundBut [] ↔ b.Sound := by
  constructor
  · intro h buffer hb
    obtain ⟨i, hi, he⟩ := List.mem_iff_getElem.mp hb
    have hbuffer : b.buffer i = buffer := by
      rw [Buffers.buffer, List.getElem?_eq_getElem hi, he]
      rfl
    have hat := h i (List.not_mem_nil)
    rwa [SoundAt, status, queue, hbuffer] at hat
  · intro h i _
    by_cases hi : i < b.count
    · refine h _ ?_
      rw [Buffers.buffer, List.getElem?_eq_getElem hi]
      exact List.getElem_mem hi
    · rw [SoundAt, status, queue, buffer_of_count_le (Nat.le_of_not_lt hi)]
      rfl

theorem SoundAt.idle_iff (h : b.SoundAt i) : b.status i = .idle ↔ b.queue i = [] := by
  rw [h]
  split <;> simp_all

theorem SoundAt.ne_processing (h : b.SoundAt i) : b.status i ≠ .processing := by
  rw [h]
  split <;> simp

namespace SoundBut

theorem record (h : b.SoundBut claimed) (hr : b.record i e = .ok b') : b'.SoundBut claimed := by
  intro j hj
  by_cases he : j = i
  · subst he
    have hat := h j hj
    rw [SoundAt] at hat
    rw [SoundAt, status, queue, buffer_record hr, if_pos rfl, hat]
    split <;> simp [scheduled]
  · exact (h j hj).of_buffer (by rw [buffer_record hr, if_neg he])

/-- Nothing is asked of a claimed buffer. -/
theorem setBuffer (h : b.SoundBut claimed) (hi : i ∈ claimed) (new : Buffer) :
    (b.setBuffer i new).SoundBut claimed :=
  fun j hj => (h j hj).of_buffer (buffer_setBuffer_of_ne fun he => hj (he ▸ hi))

theorem claim (h : b.SoundBut claimed) (i : Nat) :
    (b.setStatus i .processing).SoundBut (i :: claimed) := by
  have hmore : b.SoundBut (i :: claimed) := fun j hj => h j fun hm => hj (List.mem_cons_of_mem i hm)
  exact hmore.setBuffer List.mem_cons_self _

theorem settle (h : b.SoundBut (i :: claimed)) : (b.settle i).SoundBut claimed := by
  intro j hj
  by_cases he : j = i
  · subst he
    by_cases hi : j < b.count
    · rw [SoundAt, status, queue, Buffers.settle, setStatus, buffer_setBuffer _ _ _ _ hi, if_pos rfl]
      simp [queue]
    · have hcount : (b.settle j).count ≤ j := by
        simpa [Buffers.settle, setStatus] using hi
      rw [SoundAt, status, queue, buffer_of_count_le hcount]
      rfl
  · have hsame : (b.settle i).buffer j = b.buffer j := buffer_setBuffer_of_ne he
    exact (h j (by simp [he, hj])).of_buffer hsame

end SoundBut

end Buffers

namespace Buffered

variable {W : Type} [Buffered W] {apply : Event → W → W} {claimed : List Nat} {i : Nat} {w : W}

/-- Two drains one after the other. -/
theorem drainStripes_append (apply : Event → W → W) (is js : List Nat) (w : W) :
    drainStripes apply (is ++ js) w =
      ((drainStripes apply is w).1 + (drainStripes apply js (drainStripes apply is w).2).1,
        (drainStripes apply js (drainStripes apply is w).2).2) := by
  induction is generalizing w with
  | nil => simp [drainStripes]
  | cons i is ih =>
    simp only [List.cons_append, drainStripes]
    split
    · exact ih w
    · simp only [ih, Nat.add_assoc]

section

variable (step : ∀ claimed e w, (buffers w).SoundBut claimed → (buffers (apply e w)).SoundBut claimed)

include step

theorem replay_soundBut (h : (buffers w).SoundBut claimed) (hi : i ∈ claimed) (n : Nat) :
    (buffers (replay apply i n w).2).SoundBut claimed := by
  induction n generalizing w with
  | zero => exact h
  | succ n ih =>
    unfold replay
    cases hp : (buffers w).pop i with
    | none => exact h
    | some popped =>
      obtain ⟨e, b⟩ := popped
      have hb : b.SoundBut claimed := by
        unfold Buffers.pop at hp
        split at hp
        · cases hp
        · cases hp
          exact h.setBuffer hi _
      exact ih (step claimed e _ (by rwa [buffers_setBuffers]))

theorem drainStripe_soundBut (h : (buffers w).SoundBut claimed) (i : Nat) :
    (buffers (drainStripe apply i w).2).SoundBut claimed := by
  unfold drainStripe
  rw [buffers_setBuffers]
  refine (replay_soundBut step ?_ List.mem_cons_self _).settle
  rw [buffers_setBuffers]
  exact h.claim i

theorem drainStripes_soundBut (h : (buffers w).SoundBut claimed) (is : List Nat) :
    (buffers (drainStripes apply is w).2).SoundBut claimed := by
  induction is generalizing w with
  | nil => exact h
  | cons i is ih =>
    unfold drainStripes
    split
    · exact ih h
    · exact ih (drainStripe_soundBut step h i)

/-- A drain leaves the buffers sound but for those that other drains have claimed. -/
theorem drain_soundBut (h : (buffers w).SoundBut claimed) :
    (buffers (drain apply w).2).SoundBut claimed :=
  drainStripes_soundBut step h _

end

end Buffered

/-- The replay of an engine is such a drain. -/
theorem Engine.replay_soundBut {e : Engine} {claimed : List Nat}
    (h : e.buffers.SoundBut claimed) : e.replay.2.buffers.SoundBut claimed :=
  have hstep (claimed : List Nat) (ev : Event) (e : Engine) (h : e.buffers.SoundBut claimed) :
      (e.apply ev).buffers.SoundBut claimed := by rwa [buffers_apply]
  Buffered.drain_soundBut (W := Engine) hstep h

end BoundedCache
