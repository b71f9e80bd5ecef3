import GradualMap.Table.Basic

/-!
Where a walk over a table starts.
-/

namespace GradualMap

/-- The first chain of a walk and the slot each bucket is read from first. -/
structure Start where
  index : Nat
  offset : Nat
  deriving DecidableEq, Repr

/-- The low bits of a word give the chain, the three bits above them the slot. -/
def Start.ofWord (exponent : Nat) (word : UInt64) : Start where
  index := word.toNat % bucketCount exponent
  offset := word.toNat / bucketCount exponent % bucketSize

def Start.draw {δ : Type} (exponent : Nat) : Action (KeyEnv δ) Start := do
  return .ofWord exponent (← KeyEnv.draw)

end GradualMap
