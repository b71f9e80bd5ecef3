import GradualMap.Proofs.Array
import GradualMap.Proofs.Scheme

/-!
The invariant of a table. Each entry sits where the rules admit it, in the current array or in an
old chain that waits for its evacuation; the chains such an old chain will go to are empty until
then, which is why an evacuation may fill them from their first slot on.
-/

namespace GradualMap

variable {K V : Type}

/-- A chain that is read as it stands. -/
structure Chain.Sound (rules : Rules K) (seed : UInt64) (size index : Nat) (chain : Chain K V) :
    Prop where
  tidy : Row.Tidy rules.exact chain.slots
  placed : ∀ item ∈ chain.live, rules.admits seed size index item.1 item.2.key

theorem Chain.sound_empty {rules : Rules K} {seed : UInt64} {size index : Nat} :
    (Chain.empty : Chain K V).Sound rules seed size index where
  tidy := .spare bucketSize
  placed := by simp

namespace Resize

/-- The chain was evacuated. -/
def Vacated (resize : Resize K V) (old : Nat) : Prop :=
  Row.Vacated (resize.array.chainAt old).slots

/-- The chain was not, and nothing is where its entries will go. -/
structure Waiting (rules : Rules K) (seed : UInt64) (current : BucketArray K V)
    (resize : Resize K V) (old : Nat) : Prop where
  sound : (resize.array.chainAt old).Sound rules seed resize.array.size old
  low : current.chainAt old = .empty
  high : current.chainAt (old + resize.array.size) = .empty

/-- Its slots are not tagged as evacuated. -/
theorem Waiting.not_vacated {rules : Rules K} {seed : UInt64} {current : BucketArray K V}
    {resize : Resize K V} {old : Nat} (waiting : resize.Waiting rules seed current old) :
    ¬ resize.Vacated old := by
  intro vacated
  have evacuated := Chain.isEvacuated_of_vacated vacated
  rw [Chain.isEvacuated_of_tidy waiting.sound.tidy] at evacuated
  cases evacuated

structure Sound (rules : Rules K) (seed : UInt64) (current : BucketArray K V)
    (resize : Resize K V) : Prop where
  size : current.size = if resize.sameSize then resize.array.size else 2 * resize.array.size
  cursor_lt : resize.cursor < resize.array.size
  passed : ∀ old < resize.cursor, resize.Vacated old
  chains : ∀ old < resize.array.size,
    resize.Vacated old ∨ resize.Waiting rules seed current old

/-- Both sizes lead a hash to the same old chain. -/
theorem Sound.mod_mod {rules : Rules K} {seed : UInt64} {current : BucketArray K V}
    {resize : Resize K V} (sound : resize.Sound rules seed current) (n : Nat) :
    n % current.size % resize.array.size = n % resize.array.size := by
  apply Nat.mod_mod_of_dvd
  rw [sound.size]
  split
  · exact Nat.dvd_refl _
  · exact Nat.dvd_mul_left _ _

/-- Nothing is in the chains that a waiting chain will be dealt to. -/
theorem Sound.untouched {rules : Rules K} {seed : UInt64} {current : BucketArray K V}
    {resize : Resize K V} {index : Nat} (sound : resize.Sound rules seed current)
    (bound : index < current.size)
    (waiting : resize.Waiting rules seed current (index % resize.array.size)) :
    current.chainAt index = .empty := by
  have size := sound.size
  have low := waiting.low
  have high := waiting.high
  by_cases small : index < resize.array.size
  · rwa [Nat.mod_eq_of_lt small] at low
  · have above : index % resize.array.size + resize.array.size = index := by
      rw [Nat.mod_eq_sub_mod (Nat.le_of_not_lt small),
        Nat.mod_eq_of_lt (by split at size <;> omega)]
      omega
    rwa [above] at high

end Resize

namespace Table

/-- The entries that a resize has still to move. -/
def former (table : Table K V) : List (Entry K V) :=
  (table.resize.map (·.array.entries)).getD []

def entries (table : Table K V) : List (Entry K V) :=
  table.current.entries ++ table.former

theorem entries_of_idle {table : Table K V} (idle : table.resize = none) :
    table.entries = table.current.entries := by
  simp [entries, former, idle]

theorem mem_entries {table : Table K V} {entry : Entry K V} :
    entry ∈ table.entries ↔
      (∃ i < table.current.size, entry ∈ (table.current.chainAt i).entries) ∨
      ∃ resize, table.resize = some resize ∧ ∃ i < resize.array.size,
        entry ∈ (resize.array.chainAt i).entries := by
  unfold entries former
  cases table.resize with
  | none => simp [BucketArray.mem_entries]
  | some resize => simp [BucketArray.mem_entries]

structure Sound (rules : Rules K) (table : Table K V) : Prop where
  count : table.count = table.entries.length
  allocated : table.current.size = 0 ∧ table.exponent = 0 ∧ table.resize = none ∨
    table.current.size = bucketCount table.exponent ∧ table.exponent < exponentLimit
  chains : ∀ i < table.current.size,
    (table.current.chainAt i).Sound rules table.seed table.current.size i
  resizing : ∀ resize, table.resize = some resize → resize.Sound rules table.seed table.current

/-- The entries of current chain `index` are all in that chain. -/
def Settled (table : Table K V) (index : Nat) : Prop :=
  ∀ resize, table.resize = some resize → resize.Vacated (index % resize.array.size)

theorem settled_of_idle {table : Table K V} (idle : table.resize = none) (index : Nat) :
    table.Settled index := by
  intro resize growing
  rw [idle] at growing
  cases growing

/-- What an evacuation leaves as it was: the entries, and with them all that is kept of the table
outside its arrays. Its overflow buckets are paid for by the entries it brings to the current
array. -/
structure Steady (before after : Table K V) : Prop where
  entries : after.entries.Perm before.entries
  count : after.count = before.count
  exponent : after.exponent = before.exponent
  seed : after.seed = before.seed
  size : after.current.size = before.current.size
  overflow : bucketSize * after.overflowCount + before.current.entries.length ≤
    bucketSize * before.overflowCount + after.current.entries.length

namespace Steady

variable {before between after : Table K V}

theorem refl (table : Table K V) : Steady table table :=
  ⟨.refl _, rfl, rfl, rfl, rfl, Nat.le_refl _⟩

theorem trans (first : Steady before between) (second : Steady between after) :
    Steady before after where
  entries := second.entries.trans first.entries
  count := second.count.trans first.count
  exponent := second.exponent.trans first.exponent
  seed := second.seed.trans first.seed
  size := second.size.trans first.size
  overflow := by
    have first := first.overflow
    have second := second.overflow
    omega

end Steady

namespace Sound

variable {rules : Rules K} {table : Table K V} {resize : Resize K V} {old : Nat}

theorem isEvacuated_iff (sound : table.Sound rules) (growing : table.resize = some resize)
    (bound : old < resize.array.size) :
    (resize.array.chainAt old).isEvacuated = true ↔ resize.Vacated old := by
  constructor
  · intro evacuated
    rcases (sound.resizing resize growing).chains old bound with vacated | waiting
    · exact vacated
    · rw [Chain.isEvacuated_of_tidy waiting.sound.tidy] at evacuated
      cases evacuated
  · exact Chain.isEvacuated_of_vacated

/-- An array in use has `2 ^ exponent` chains. -/
theorem size_eq (sound : table.Sound rules) (allocated : table.current.size ≠ 0) :
    table.current.size = bucketCount table.exponent :=
  (sound.allocated.resolve_left fun h => allocated h.1).1

theorem size_eq_of_lt (sound : table.Sound rules) {index : Nat}
    (bound : index < table.current.size) : table.current.size = bucketCount table.exponent :=
  sound.size_eq (Nat.ne_zero_of_lt bound)

theorem size_eq_of_growing (sound : table.Sound rules) (growing : table.resize = some resize) :
    table.current.size = bucketCount table.exponent := by
  refine (sound.allocated.resolve_left fun unallocated => ?_).1
  rw [growing] at unallocated
  cases unallocated.2.2

/-- A chain that is not tagged as evacuated waits. -/
theorem waiting (sound : table.Sound rules) (growing : table.resize = some resize)
    (bound : old < resize.array.size) (waits : (resize.array.chainAt old).isEvacuated = false) :
    resize.Waiting rules table.seed table.current old := by
  apply ((sound.resizing resize growing).chains old bound).resolve_left
  intro vacated
  rw [Chain.isEvacuated_of_vacated vacated] at waits
  cases waits

/-- So does a chain that has an entry. -/
theorem waiting_of_live (sound : table.Sound rules) (growing : table.resize = some resize)
    (bound : old < resize.array.size) {item : UInt8 × Entry K V}
    (mem : item ∈ (resize.array.chainAt old).live) :
    resize.Waiting rules table.seed table.current old := by
  apply ((sound.resizing resize growing).chains old bound).resolve_left
  intro vacated
  rw [Chain.live, vacated.live] at mem
  cases mem

/-- The old array of a resize is as large as the current one, or half as large. -/
theorem former_size (sound : table.Sound rules) (growing : table.resize = some resize) :
    if resize.sameSize then resize.array.size = bucketCount table.exponent
    else 0 < table.exponent ∧ resize.array.size = bucketCount (table.exponent - 1) := by
  have size := (sound.resizing resize growing).size
  rw [sound.size_eq_of_growing growing] at size
  split at size
  · rename_i same
    rw [if_pos same]
    exact size.symm
  · rename_i doubling
    rw [if_neg doubling]
    cases exponent : table.exponent with
    | zero =>
      rw [exponent] at size
      have one : bucketCount 0 = 1 := rfl
      omega
    | succ exponent =>
      rw [exponent, bucketCount_succ] at size
      rw [Nat.add_sub_cancel]
      exact ⟨Nat.succ_pos _, by omega⟩

theorem resize_eq_none (sound : table.Sound rules) (small : table.current.size = 0) :
    table.resize = none := by
  rcases sound.allocated with ⟨_, _, none⟩ | ⟨size, _⟩
  · exact none
  · have := bucketCount_pos table.exponent
    omega

/-- Wherever the keys may be. -/
theorem any (sound : table.Sound rules) (exact : rules.exact) : table.Sound Rules.any where
  count := sound.count
  allocated := sound.allocated
  chains i bound := ⟨(sound.chains i bound).tidy.mono fun _ => exact, fun _ _ => trivial⟩
  resizing resize growing := by
    have inUse := sound.resizing resize growing
    refine ⟨inUse.size, inUse.cursor_lt, inUse.passed, fun old bound => ?_⟩
    refine (inUse.chains old bound).imp_right fun waiting => ⟨⟨?_, fun _ _ => trivial⟩, ?_, ?_⟩
    · exact waiting.sound.tidy.mono fun _ => exact
    · exact waiting.low
    · exact waiting.high

end Sound

end Table

end GradualMap
