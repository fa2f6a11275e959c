namespace BoundedCache

/-- A number that sums move up and down. It remembers how high it has ever stood, and whether more
was ever taken from it than it held. -/
structure Gauge where
  value : Nat := 0
  peak : Nat := 0
  overdrawn : Bool := false
  deriving DecidableEq, Repr

namespace Gauge

def add (g : Gauge) (n : Nat) : Gauge :=
  { g with value := g.value + n, peak := max g.peak (g.value + n) }

def sub (g : Gauge) (n : Nat) : Gauge :=
  { g with value := g.value - n, overdrawn := g.overdrawn || decide (g.value < n) }

/-- With `range` values to a word, no sum has wrapped. -/
def Exact (range : Nat) (g : Gauge) : Prop := g.peak < range ∧ g.overdrawn = false

instance (range : Nat) (g : Gauge) : Decidable (g.Exact range) :=
  inferInstanceAs (Decidable (_ ∧ _))

@[simp] theorem value_add (g : Gauge) (n : Nat) : (g.add n).value = g.value + n := rfl

@[simp] theorem value_sub (g : Gauge) (n : Nat) : (g.sub n).value = g.value - n := rfl

@[simp] theorem peak_sub (g : Gauge) (n : Nat) : (g.sub n).peak = g.peak := rfl

@[simp] theorem sub_zero (g : Gauge) : g.sub 0 = g := by simp [sub]

theorem sub_sub (g : Gauge) (m n : Nat) : (g.sub m).sub n = g.sub (m + n) := by
  have hover : (g.overdrawn || decide (g.value < m) || decide (g.value - m < n)) =
      (g.overdrawn || decide (g.value < m + n)) := by
    have hboth : (g.value < m ∨ g.value - m < n) ↔ g.value < m + n := by omega
    rw [Bool.eq_iff_iff]
    simp [or_assoc, hboth]
  show (⟨g.value - m - n, g.peak, _⟩ : Gauge) = ⟨g.value - (m + n), g.peak, _⟩
  rw [Nat.sub_sub]
  exact congrArg (mk _ _) hover

end Gauge

end BoundedCache
