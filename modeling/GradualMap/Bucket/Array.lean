import GradualMap.Bucket.Chain
import GradualMap.Failure

/-!
An array of chains. Its overflow buckets sit in an arena of numbered cells, which orders them for a
walk over all buckets.
-/

namespace GradualMap

/-- The cells in use are those from `vacant` up to `vacant + linked`. The vacant cells below come
from an earlier filling and are taken again from the top down; only then is the arena extended. -/
structure BucketArray (K V : Type) where
  chains : Array (Chain K V)
  vacant : Nat := 0
  /-- How many overflow buckets are linked. -/
  linked : Nat := 0
  deriving DecidableEq

/-- The number of chains, and so of primary buckets, of an array: `2 ^ exponent`. -/
def bucketCount (exponent : Nat) : Nat :=
  Nat.pow 2 exponent

theorem bucketCount_succ (exponent : Nat) : bucketCount (exponent + 1) = 2 * bucketCount exponent :=
  Nat.mul_comm _ _

theorem bucketCount_pos (exponent : Nat) : 0 < bucketCount exponent :=
  Nat.two_pow_pos exponent

namespace BucketArray

variable {K V : Type}

/-- The array of a table that has not stored anything yet. -/
def unallocated : BucketArray K V where
  chains := #[]

instance : Inhabited (BucketArray K V) := ⟨unallocated⟩

def ofExponent (exponent : Nat) : BucketArray K V where
  chains := Array.replicate (bucketCount exponent) .empty

/-- The number of chains. -/
def size (array : BucketArray K V) : Nat :=
  array.chains.size

def isAllocated (array : BucketArray K V) : Bool :=
  array.size != 0

def fetch (array : BucketArray K V) (index : Nat) : Except Abort (Chain K V) :=
  match array.chains[index]? with
  | some chain => .ok chain
  | none => .error (.outOfRange array.size index)

/-- The offset in its chain of a slot given by the depth of its bucket. -/
def offsetOf (array : BucketArray K V) (index depth slot : Nat) : Except Abort Nat := do
  let chain ← array.fetch index
  if chain.depth ≤ depth then
    throw (.outOfRange chain.depth depth)
  if bucketSize ≤ slot then
    throw (.outOfRange bucketSize slot)
  return bucketSize * depth + slot

def modify (array : BucketArray K V) (index : Nat) (f : Chain K V → Chain K V) :
    BucketArray K V :=
  { array with chains := array.chains.modify index f }

def setSlot (array : BucketArray K V) (index offset : Nat) (slot : Slot K V) : BucketArray K V :=
  array.modify index (·.set offset slot)

/-- The cell that the next overflow bucket takes. -/
def nextCell (array : BucketArray K V) : Nat :=
  if array.vacant = 0 then array.linked else array.vacant - 1

/-- Links an empty overflow bucket at the end of a chain. -/
def link (array : BucketArray K V) (index : Nat) : BucketArray K V :=
  let cell := array.nextCell
  { chains := array.chains.modify index (·.link cell)
    vacant := array.vacant - 1
    linked := array.linked + 1 }

/-- Empties every chain and frees its overflow buckets. -/
def reset (array : BucketArray K V) : BucketArray K V where
  chains := Array.replicate array.size .empty
  vacant := array.vacant + array.linked

/-- The bucket an index of a larger array comes from. -/
def wrap (array : BucketArray K V) (index : Nat) : Except Abort Nat :=
  if array.size = 0 then .error .underflow else .ok (index % array.size)

def isEvacuated (array : BucketArray K V) (index : Nat) : Except Abort Bool :=
  Chain.isEvacuated <$> array.fetch index

/-- All buckets as chain index and depth: the primary ones from `start` on, wrapping around, then
the overflow buckets by cell. -/
def places (array : BucketArray K V) (start : Nat) : List (Nat × Nat) :=
  let primary := (List.range array.size).rotateLeft (start % array.size)
  let overflow := (List.range array.size).flatMap fun index =>
    ((array.chains[index]?.map Chain.cells).getD []).mapIdx fun i cell => (cell, index, i + 1)
  primary.map (·, 0) ++ (overflow.mergeSort fun a b => a.1 ≤ b.1).map (·.2)

@[simp] theorem size_ofExponent (exponent : Nat) :
    (ofExponent exponent : BucketArray K V).size = bucketCount exponent := by
  simp [ofExponent, size]

@[simp] theorem size_modify (array : BucketArray K V) (index : Nat) (f : Chain K V → Chain K V) :
    (array.modify index f).size = array.size := by
  simp [modify, size]

@[simp] theorem size_setSlot (array : BucketArray K V) (index offset : Nat) (slot : Slot K V) :
    (array.setSlot index offset slot).size = array.size := by
  simp [setSlot]

@[simp] theorem linked_modify (array : BucketArray K V) (index : Nat) (f : Chain K V → Chain K V) :
    (array.modify index f).linked = array.linked :=
  rfl

@[simp] theorem linked_setSlot (array : BucketArray K V) (index offset : Nat) (slot : Slot K V) :
    (array.setSlot index offset slot).linked = array.linked :=
  rfl

@[simp] theorem size_link (array : BucketArray K V) (index : Nat) :
    (array.link index).size = array.size := by
  simp [link, size]

@[simp] theorem size_reset (array : BucketArray K V) : array.reset.size = array.size := by
  simp [reset, size]

end BucketArray

end GradualMap
