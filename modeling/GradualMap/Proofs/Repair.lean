import GradualMap.Proofs.Estimate
import GradualMap.Proofs.Visit

/-!
What a resize leaves. It is started because there are too many entries or too many overflow buckets,
and once it has moved every entry there are neither, however the keys are hashed: each chain is
packed, so that no more than one overflow bucket comes to eight entries.
-/

namespace GradualMap

open GradualMap.Action

variable {K V δ : Type} {scheme : KeyScheme K δ}

/-- No slot before the last entry is empty, and no bucket is spare. -/
def Chain.Tight (chain : Chain K V) : Prop :=
  chain.Packed chain.live

theorem Chain.Packed.tight {items : List (UInt8 × Entry K V)} {chain : Chain K V}
    (packed : chain.Packed items) : chain.Tight := by
  have live : chain.live = items := packed.row.live
  unfold Tight
  rwa [live]

theorem Chain.tight_empty : (Chain.empty : Chain K V).Tight :=
  Chain.packed_empty.tight

/-- With one overflow bucket for eight entries at most there are fewer of them than chains. -/
theorem not_tooScattered {count overflowCount exponent : Nat}
    (load : overloaded (count + 1) exponent = false) (few : overflowCount ≤ count / bucketSize)
    (small : exponent < 16) : tooScattered overflowCount exponent = false := by
  have pos := bucketCount_pos exponent
  rw [overloaded_eq_false] at load
  rw [tooScattered, Nat.min_eq_left (Nat.le_of_lt_succ small), decide_eq_false_iff_not]
  simp only [bucketSize] at few
  omega

namespace Table

variable {table : Table K V} {before after : Table K V × List Event}

/-- Every chain of the current array is packed. -/
def Compact (table : Table K V) : Prop :=
  ∀ index < table.current.size, (table.current.chainAt index).Tight

theorem compact_started (table : Table K V) : table.started.Compact := by
  intro index _
  rw [started, BucketArray.chainAt_ofExponent]
  exact Chain.tight_empty

theorem Shift.compact (shift : Shift scheme before after) (compact : before.1.Compact) :
    after.1.Compact := by
  cases shift with
  | @move table after log resize old moved growing bound waits carried dealt =>
    intro index inside
    by_cases target : ∃ half, (resize.routing table.seed).Uses half ∧
        index = (resize.routing table.seed).target old half
    · obtain ⟨half, uses, rfl⟩ := target
      exact (dealt.filled half uses).tight
    · rw [dealt.others index fun half uses eq => target ⟨half, uses, eq⟩]
      exact compact index (dealt.size ▸ inside)
  | advance growing ahead bound passed => exact compact
  | finish growing all => exact compact

theorem Shifts.compact (shifts : Shifts scheme before after) (compact : before.1.Compact) :
    after.1.Compact := by
  induction shifts with
  | refl => exact compact
  | tail _ shift ih => exact shift.compact ih

/-- Doubled or not, the new array has room for one more entry. -/
theorem Uncrowded.started_load (roomy : table.Uncrowded) (idle : table.resize = none) :
    overloaded (table.count + 1) table.started.exponent = false := by
  have exponent : table.started.exponent =
    if overloaded (table.count + 1) table.exponent then table.exponent + 1 else table.exponent := rfl
  rw [exponent]
  split
  · have pos := bucketCount_pos table.exponent
    unfold Uncrowded at roomy
    rw [allowance_of_idle idle] at roomy
    simp only [ceiling, bucketSize] at roomy
    rw [overloaded_eq_false, bucketCount_succ]
    omega
  · rename_i enough
    exact Bool.eq_false_iff.mpr enough

/-- The overflow buckets of a resize that has moved everything are paid for by the entries. -/
theorem Steady.overflowCount_le {after : Table K V} (steady : Steady table.started after)
    (idle : after.resize = none) (count : after.count = after.entries.length) :
    after.overflowCount ≤ after.count / bucketSize := by
  have paid := steady.overflow
  have bare : table.started.current.entries.length = 0 := by simp [started]
  have none : table.started.overflowCount = 0 := rfl
  rw [count, entries_of_idle idle, Nat.le_div_iff_mul_le (by decide), Nat.mul_comm]
  rw [bare, none] at paid
  omega

/-- What a whole resize makes of a table that had to grow. -/
structure Repaired (before after : Table K V) : Prop where
  exponent : after.exponent = before.started.exponent
  idle : after.resize = none
  entries : after.entries.Perm before.entries
  count : after.count = before.count
  seed : after.seed = before.seed
  compact : after.Compact
  linked : after.current.linked = after.overflowCount
  few : after.overflowCount ≤ after.count / bucketSize
  load : overloaded (after.count + 1) after.exponent = false
  scatter : tooScattered after.overflowCount after.exponent = false

/-- The next entry does not start another resize. -/
theorem Repaired.calm {before after : Table K V} (repaired : Repaired before after) :
    after.mustGrow = false := by
  simp [mustGrow, repaired.load, repaired.scatter]

theorem Shifts.repaired {log log' : List Event} {after : Table K V}
    (sound : table.Sound Rules.any) (estimated : table.Estimated) (idle : table.resize = none)
    (allocated : table.current.size ≠ 0) (small : table.started.exponent < 16)
    (shifts : Shifts scheme (table.started, log) (after, log')) (ended : after.resize = none) :
    Repaired table after := by
  have begun := started_spec sound idle
  have size := sound.size_eq allocated
  have sound' := sound.started idle size (Nat.lt_trans small (by decide))
  obtain ⟨sound'', steady⟩ := shifts.sound (Rules.any_heldBy scheme) sound'
  have few : after.overflowCount ≤ after.count / bucketSize :=
    steady.overflowCount_le ended sound''.count
  have exponent : after.exponent = table.started.exponent := steady.exponent
  have count : after.count = table.count := steady.count.trans begun.count
  have load : overloaded (after.count + 1) after.exponent = false := by
    rw [count, exponent]
    exact estimated.roomy.started_load idle
  have scatter := not_tooScattered load few (exponent ▸ small)
  refine ⟨exponent, ended, steady.entries.trans (.of_eq begun.entries), count,
    steady.seed.trans begun.seed, shifts.compact (compact_started table), ?_, few, load, scatter⟩
  -- So few overflow buckets are all counted: the estimate stops far above their number.
  have gauged := shifts.gauged ⟨Nat.le_refl _, fun _ => rfl⟩
  have counted := gauged.exact (exponent ▸ small)
  rw [tooScattered, decide_eq_false_iff_not] at scatter
  have most : bucketCount (min after.exponent 15) ≤ bucketCount 15 :=
    Nat.pow_le_pow_right (by decide) (Nat.min_le_right _ _)
  have limit : bucketCount 15 = 32768 := rfl
  simp only [maxOverflowCount] at counted
  omega

/-- A table without an array needs no larger one. -/
theorem Sound.allocated_of_mustGrow (sound : table.Sound Rules.any) (estimated : table.Estimated)
    (must : table.mustGrow = true) : table.current.size ≠ 0 := by
  intro none
  have empty : table.entries = [] := by
    rw [entries_of_idle (sound.resize_eq_none none)]
    exact BucketArray.entries_eq_nil fun i bound => absurd (none ▸ bound) (Nat.not_lt_zero i)
  have count : table.count = 0 := by simp [sound.count, empty]
  have pos := bucketCount_pos (min table.exponent 15)
  have linked := estimated.bare none
  have estimate := estimated.gauged.le
  simp only [mustGrow, count, Bool.and_eq_true, Bool.or_eq_true, tooScattered, decide_eq_true_eq,
    overloaded_eq_true] at must
  omega

/-- An array that any memory has room for is refused only where there is none. -/
theorem ends_startGrowth {env : Env δ} (fits : table.started.exponent < exponentLimit)
    {post : Unit → Table K V × Env δ → Prop} {fails : Failure → Table K V × Env δ → Prop} :
    Ends startGrowth (table, env) post fails ↔
      if env.grants table.started.exponent then
        post () (table.started, { env with log := table.startEvent :: env.log })
      else fails (.fault (.noMemory (bucketCount table.started.exponent))) (table, env) := by
  have shift : ¬ 64 ≤ table.started.exponent := by
    simp only [exponentLimit] at fits
    omega
  unfold startGrowth Env.allocate
  simp only [ends_bind, ends_read, ends_second]
  change Ends (if 64 ≤ table.started.exponent then _ else _) _ _ _ ↔ _
  rw [if_neg shift, ends_bind, ends_get]
  change Ends (if (decide (table.started.exponent < exponentLimit) &&
    env.grants table.started.exponent) = true then _ else _) _ _ _ ↔ _
  rw [decide_eq_true fits, Bool.true_and]
  cases env.grants table.started.exponent
  · exact Iff.rfl
  · exact Iff.rfl

/-- A resize with nothing in between, which ends unless there is no memory for the new array or the
scheme does not answer for a stored key. -/
theorem regrow_ends (sound : table.Sound Rules.any) (estimated : table.Estimated)
    (must : table.mustGrow = true) (small : table.started.exponent < 16) (env : Env δ) :
    Ends (do
        startGrowth
        finishGrowth scheme) (table, env)
      (fun _ s => Repaired table s.1)
      (fun failure s => env.grants table.started.exponent = false ∧ s = (table, env) ∧
          failure = .fault (.noMemory (bucketCount table.started.exponent)) ∨
        ¬ table.Answered scheme ∧ failure.Aborts) := by
  have idle := idle_of_mustGrow must
  have allocated := sound.allocated_of_mustGrow estimated must
  have fits : table.started.exponent < exponentLimit := Nat.lt_trans small (by decide)
  have sound' := sound.started idle (sound.size_eq allocated) fits
  rw [ends_bind, ends_startGrowth fits]
  split
  · by_cases answered : table.Answered scheme
    · have answered' : table.started.Answered scheme := by
        intro entry mem
        rw [(started_spec sound idle).entries] at mem
        exact answered entry mem
      refine (finishGrowth_yields sound' answered' _).ends fun _ s h => ?_
      exact h.1.repaired sound estimated idle allocated small h.2
    · refine (finishGrowth_ends (Rules.any_heldBy scheme) sound' _).mono (fun _ s h => ?_)
        fun _ _ aborts => .inr ⟨answered, aborts⟩
      exact h.1.repaired sound estimated idle allocated small h.2
  · rename_i refused
    exact .inl ⟨Bool.eq_false_iff.mpr refused, rfl, rfl⟩

end Table

/-- However the keys are hashed, a resize that starts because one more entry would overload a table
or because its overflow buckets are too many leaves neither to be the case: at the end every chain is
packed, the overflow buckets are all counted and one comes to eight entries at most. Only the memory
for the new array and the hash of a stored key can be missing. -/
theorem growth_repairs {map : Map K V} (reachable : Reachable scheme map)
    (must : map.table.mustGrow = true) (small : map.table.started.exponent < 16) (env : Env δ) :
    Ends (do
        Table.startGrowth
        Table.finishGrowth scheme) (map.table, env)
      (fun _ s => Table.Repaired map.table s.1 ∧ s.1.mustGrow = false)
      (fun failure s => env.grants map.table.started.exponent = false ∧ s = (map.table, env) ∧
          failure = .fault (.noMemory (bucketCount map.table.started.exponent)) ∨
        ¬ map.table.Answered scheme ∧ failure.Aborts) :=
  (Table.regrow_ends reachable.intact.1 reachable.estimated must small env).mono
    (fun _ _ repaired => ⟨repaired, repaired.calm⟩) fun _ _ => id

/-- Ten words under a hash that is the word itself, in two chains with a bucket too many each: the
first chain had nine even words, of which one is left. -/
theorem growth_repairs_scattered : ∃ map : Map UInt64 Nat,
    map.table.exponent = 1 ∧ map.table.started.exponent = 1 ∧ map.table.count = 10 ∧
    map.table.overflowCount = 2 ∧ map.table.mustGrow = true ∧
    Ends (do
        Table.startGrowth
        Table.finishGrowth (Key.Masked.scheme {})) (map.table, .lenient {})
      (fun _ s => Table.Repaired map.table s.1 ∧ s.1.mustGrow = false)
      (fun failure s => (Env.lenient {}).grants map.table.started.exponent = false ∧
          s = (map.table, .lenient {}) ∧
          failure = .fault (.noMemory (bucketCount map.table.started.exponent)) ∨
        ¬ map.table.Answered (Key.Masked.scheme {}) ∧ failure.Aborts) := by
  let evens := (List.range 9).map fun n => ((2 * n).toUInt64, n)
  let odds := (List.range 9).map fun n => ((2 * n + 1).toUInt64, n)
  have made : Reachable (V := Nat) (Key.Masked.scheme {}) _ := .made .empty (.lenient {}) rfl
  obtain ⟨map, reachable, exponent, started, count, overflow, must⟩ : ∃ map : Map UInt64 Nat,
      Reachable (Key.Masked.scheme {}) map ∧ map.table.exponent = 1 ∧
      map.table.started.exponent = 1 ∧ map.table.count = 10 ∧ map.table.overflowCount = 2 ∧
      map.table.mustGrow = true :=
    ⟨_, ((made.after (.extend evens) (.lenient {}) () (by decide +kernel)).after
      (.retain fun key value => return (value, key = 0)) (.lenient {}) ()
      (by decide +kernel)).after (.extend odds) (.lenient {}) () (by decide +kernel),
      by decide +kernel⟩
  exact ⟨map, exponent, started, count, overflow, must,
    growth_repairs reachable must (started ▸ by decide) (.lenient {})⟩

end GradualMap
