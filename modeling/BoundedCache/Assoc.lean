namespace BoundedCache.Assoc

variable {α β : Type} [DecidableEq α]

def drop (key : α) (pairs : List (α × β)) : List (α × β) :=
  pairs.filter (fun p => p.1 ≠ key)

def put (key : α) (item : β) (pairs : List (α × β)) : List (α × β) :=
  (key, item) :: drop key pairs

theorem lookup_cons (p : α × β) (other : α) (rest : List (α × β)) :
    (p :: rest).lookup other = if other = p.1 then some p.2 else rest.lookup other := by
  rw [List.lookup_cons]
  by_cases h : other = p.1
  · simp [h]
  · rw [beq_false_of_ne h, if_neg h]

theorem lookup_drop (key other : α) (pairs : List (α × β)) :
    (drop key pairs).lookup other = if other = key then none else pairs.lookup other := by
  induction pairs with
  | nil => simp [drop]
  | cons p rest ih =>
    by_cases ha : p.1 = key
    · rw [drop, List.filter_cons_of_neg (by simp [ha]), ← drop, ih, lookup_cons, ha]
      split <;> rfl
    · rw [drop, List.filter_cons_of_pos (by simp [ha]), ← drop, lookup_cons, ih, lookup_cons]
      split
      · rw [if_neg (fun h => ha (by simp_all))]
      · rfl

theorem lookup_put (key other : α) (item : β) (pairs : List (α × β)) :
    (put key item pairs).lookup other = if other = key then some item else pairs.lookup other := by
  rw [put, lookup_cons, lookup_drop]
  split <;> rfl

end BoundedCache.Assoc
