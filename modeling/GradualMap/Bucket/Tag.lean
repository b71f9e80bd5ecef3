/-!
Slot tags. A tag says of its slot, without a look at the key, whether the slot is empty, whether a
resize took its entry away, or which hash byte its key has.
-/

namespace GradualMap

inductive Tag where
  /-- Empty, and so is every later slot of the chain. -/
  | emptyRest
  | emptyOne
  /-- The entry moved to the bucket of the same index. -/
  | evacuatedLow
  /-- The entry moved to the bucket one old array length further up. -/
  | evacuatedHigh
  /-- There was no entry to move. -/
  | evacuatedEmpty
  | full (top : UInt8)
  deriving DecidableEq, Repr

def Tag.isEmpty : Tag → Bool
  | .emptyRest | .emptyOne => true
  | _ => false

def Tag.isEvacuated : Tag → Bool
  | .evacuatedLow | .evacuatedHigh | .evacuatedEmpty => true
  | _ => false

/-- The bytes below are set apart from those of a live slot. -/
def minTopHash : UInt8 := 5

/-- The top byte of a hash, moved out of the range set apart. -/
def topHash (hash : UInt64) : UInt8 :=
  let top := (hash >>> 56).toUInt8
  if top < minTopHash then top + minTopHash else top

theorem minTopHash_le_topHash (hash : UInt64) : minTopHash ≤ topHash hash := by
  simp only [topHash]
  generalize (hash >>> 56).toUInt8 = top
  by_cases h : top < minTopHash
  · simp only [if_pos h]
    simp [minTopHash, UInt8.le_iff_toNat_le, UInt8.lt_iff_toNat_lt] at *
    omega
  · simp only [if_neg h]
    simpa [UInt8.le_iff_toNat_le, UInt8.lt_iff_toNat_lt] using h

end GradualMap
