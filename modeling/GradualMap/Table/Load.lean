import GradualMap.Bucket.Array

/-!
When a table is too full or too scattered, and how large it has to be for a given number of entries.
-/

namespace GradualMap

/-- Whether `count` entries are too many for `2 ^ exponent` buckets: more than one bucket holds, and
more than 6.5 to a bucket, with the half of a single bucket rounded down. -/
def overloaded (count exponent : Nat) : Bool :=
  bucketSize < count && 13 * (bucketCount exponent / 2) < count

/-- Whether there are about as many overflow buckets as primary ones. The count stops at `2 ^ 15`,
because the estimate it is compared with is a 16-bit number. -/
def tooScattered (overflowCount exponent : Nat) : Bool :=
  bucketCount (min exponent 15) ≤ overflowCount

/-- The largest value of an overflow estimate. -/
def maxOverflowCount : Nat := 65535

/-- Whether a draw counts one more overflow bucket. Below `2 ^ 16` buckets all are counted, above
that one in `2 ^ (exponent - 15)`, decided by the low bits of a 32-bit draw. -/
def countsOverflow (exponent : Nat) (draw : UInt64) : Bool :=
  draw.toNat % (1 <<< min (exponent - 15) 32) = 0

theorem lt_of_overloaded {count exponent : Nat} (h : overloaded count exponent = true) :
    13 * (bucketCount exponent / 2) < count := by
  simp [overloaded] at h
  exact h.2

/-- The smallest exponent from `exponent` on whose table `count` entries do not overload. -/
def exponentFrom (count exponent : Nat) : Nat :=
  if overloaded count exponent then exponentFrom count (exponent + 1) else exponent
termination_by count - 13 * (bucketCount exponent / 2)
decreasing_by
  rename_i h
  have := lt_of_overloaded h
  have := bucketCount_pos exponent
  rw [bucketCount_succ, Nat.mul_div_cancel_left _ (by decide)]
  omega

def exponentFor (count : Nat) : Nat :=
  exponentFrom count 0

theorem overloaded_exponentFrom (count exponent : Nat) :
    overloaded count (exponentFrom count exponent) = false := by
  fun_induction exponentFrom count exponent with
  | case1 _ _ ih => exact ih
  | case2 _ h => simpa using h

theorem overloaded_of_lt_exponentFrom {count exponent smaller : Nat} (h : exponent ≤ smaller)
    (below : smaller < exponentFrom count exponent) : overloaded count smaller = true := by
  fun_induction exponentFrom count exponent with
  | case1 exponent full ih =>
    by_cases same : exponent = smaller
    · exact same ▸ full
    · exact ih (by omega) below
  | case2 _ _ => omega

end GradualMap
