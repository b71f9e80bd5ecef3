import GradualMap.Table.Load

/-!
The load of a table, in entries: what it may take before it is overloaded, and what it gets to at
most.
-/

namespace GradualMap

theorem overloaded_eq_true {count exponent : Nat} : overloaded count exponent = true ↔
    8 < count ∧ 13 * (bucketCount exponent / 2) < count := by
  unfold overloaded
  rw [Bool.and_eq_true]
  exact and_congr decide_eq_true_iff decide_eq_true_iff

theorem overloaded_eq_false {count exponent : Nat} : overloaded count exponent = false ↔
    count ≤ 8 ∨ count ≤ 13 * (bucketCount exponent / 2) := by
  rw [← Bool.not_eq_true, overloaded_eq_true]
  omega

theorem overloaded_mono {count count' exponent : Nat} (le : count ≤ count')
    (h : overloaded count' exponent = false) : overloaded count exponent = false := by
  rw [overloaded_eq_false] at *
  omega

/-- The most entries that do not overload `2 ^ exponent` chains. -/
def threshold (exponent : Nat) : Nat :=
  max bucketSize (13 * (bucketCount exponent / 2))

/-- The most entries that `2 ^ exponent` chains ever get: another one for every chain. -/
def ceiling (exponent : Nat) : Nat :=
  max bucketSize (13 * (bucketCount exponent / 2) + bucketCount exponent)

theorem le_threshold {count exponent : Nat} (h : overloaded count exponent = false) :
    count ≤ threshold exponent := by
  rw [overloaded_eq_false] at h
  simp only [threshold, bucketSize]
  omega

theorem threshold_le_ceiling (exponent : Nat) : threshold exponent ≤ ceiling exponent := by
  simp only [threshold, ceiling]
  omega

theorem le_ceiling {count exponent : Nat} (h : overloaded count exponent = false) :
    count ≤ ceiling exponent :=
  Nat.le_trans (le_threshold h) (threshold_le_ceiling exponent)

/-- A resize of the same size ends below the ceiling. -/
theorem threshold_add_lt {cursor exponent : Nat} (lt : cursor < bucketCount exponent) :
    cursor + threshold exponent ≤ ceiling exponent := by
  simp only [threshold, ceiling, bucketSize]
  cases exponent with
  | zero =>
    have one : bucketCount 0 = 1 := rfl
    omega
  | succ exponent =>
    have pos := bucketCount_pos exponent
    rw [bucketCount_succ] at lt ⊢
    omega

/-- A doubling ends below the ceiling of the larger table. -/
theorem ceiling_add_lt {cursor exponent : Nat} (lt : cursor < bucketCount exponent) :
    cursor + ceiling exponent ≤ ceiling (exponent + 1) := by
  have pos := bucketCount_pos exponent
  simp only [ceiling, bucketSize, bucketCount_succ]
  omega

end GradualMap
