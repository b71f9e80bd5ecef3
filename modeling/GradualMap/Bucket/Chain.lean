import GradualMap.Bucket.Tag

/-!
A chain: a primary bucket and the overflow buckets linked behind it, read as one row of slots.
-/

namespace GradualMap

/-- Slots of a bucket. -/
def bucketSize : Nat := 8

structure Entry (K V : Type) where
  key : K
  value : V
  deriving DecidableEq, Repr

/-- Tag and entry are apart, because an evacuation takes the entry before it knows the tag. -/
structure Slot (K V : Type) where
  tag : Tag := .emptyRest
  entry : Option (Entry K V) := none
  deriving DecidableEq, Repr

namespace Slot

variable {K V : Type}

/-- A slot never used. -/
def empty : Slot K V :=
  {}

def full (top : UInt8) (entry : Entry K V) : Slot K V :=
  ⟨.full top, some entry⟩

/-- The entry that a scan of the table sees here, with its hash byte. -/
def live? (slot : Slot K V) : Option (UInt8 × Entry K V) :=
  match slot.tag, slot.entry with
  | .full top, some entry => some (top, entry)
  | _, _ => none

end Slot

/-- Bucket `d` of a chain is its slots `8 * d` to `8 * d + 7`; bucket 0 is the primary one. -/
structure Chain (K V : Type) where
  slots : List (Slot K V)
  /-- The arena cell of each overflow bucket, in chain order. -/
  cells : List Nat
  length_slots : slots.length = bucketSize * (cells.length + 1)
  deriving DecidableEq

namespace Chain

variable {K V : Type}

/-- A primary bucket alone, with nothing in it. -/
def empty : Chain K V where
  slots := List.replicate bucketSize .empty
  cells := []
  length_slots := rfl

instance : Inhabited (Chain K V) := ⟨empty⟩

/-- How many buckets the chain has. -/
def depth (chain : Chain K V) : Nat :=
  chain.cells.length + 1

def set (chain : Chain K V) (offset : Nat) (slot : Slot K V) : Chain K V :=
  { chain with
    slots := chain.slots.set offset slot
    length_slots := by simp [chain.length_slots] }

/-- Links an empty bucket behind the last one. -/
def link (chain : Chain K V) (cell : Nat) : Chain K V where
  slots := chain.slots ++ List.replicate bucketSize .empty
  cells := chain.cells ++ [cell]
  length_slots := by simp [chain.length_slots, bucketSize]; omega

def bucket (chain : Chain K V) (depth : Nat) : List (Slot K V) :=
  (chain.slots.drop (bucketSize * depth)).take bucketSize

def buckets (chain : Chain K V) : List (List (Slot K V)) :=
  (List.range chain.depth).map chain.bucket

/-- The slots in the order of a visit that starts at slot `offset` of each bucket and wraps. -/
def rotated (chain : Chain K V) (offset : Nat) : List (Slot K V) :=
  chain.buckets.flatMap (·.rotateLeft offset)

@[simp] theorem slots_set (chain : Chain K V) (offset : Nat) (slot : Slot K V) :
    (chain.set offset slot).slots = chain.slots.set offset slot :=
  rfl

@[simp] theorem slots_link (chain : Chain K V) (cell : Nat) :
    (chain.link cell).slots = chain.slots ++ List.replicate bucketSize .empty :=
  rfl

@[simp] theorem depth_link (chain : Chain K V) (cell : Nat) :
    (chain.link cell).depth = chain.depth + 1 := by
  simp [link, depth]

/-- Evacuation tags every slot of a chain, so the first slot speaks for all. -/
def isEvacuated (chain : Chain K V) : Bool :=
  chain.slots.head?.any (·.tag.isEvacuated)

end Chain

section Settle

variable {K V : Type}

/-- Retags as `emptyRest` the slots at the end of a row that satisfy `p`. -/
def settle (p : Tag → Bool) (slots : List (Slot K V)) : List (Slot K V) :=
  let back := slots.reverse
  let tail := back.takeWhile fun slot => p slot.tag
  let rest := back.dropWhile fun slot => p slot.tag
  rest.reverse ++ tail.reverse.map fun slot => { slot with tag := .emptyRest }

@[simp] theorem length_settle (p : Tag → Bool) (slots : List (Slot K V)) :
    (settle p slots).length = slots.length := by
  have split := List.takeWhile_append_dropWhile (p := fun slot : Slot K V => p slot.tag)
    (l := slots.reverse)
  have sizes := congrArg List.length split
  simp only [List.length_append, List.length_reverse] at sizes
  simp [settle]
  omega

end Settle

namespace Chain

variable {K V : Type}

/-- After a removal at `offset`: when only empty slots follow, the run of `emptyOne` slots that
ends there becomes part of the empty rest. -/
def settleAt (chain : Chain K V) (offset : Nat) : Chain K V :=
  if (chain.slots[offset + 1]?).all (·.tag = .emptyRest) then
    { chain with
      slots := settle (· = .emptyOne) (chain.slots.take (offset + 1))
        ++ chain.slots.drop (offset + 1)
      length_slots := by simp [← chain.length_slots]; omega }
  else
    chain

/-- After removals all over: the empty slots at the end become the empty rest. -/
def settleEnd (chain : Chain K V) : Chain K V :=
  { chain with
    slots := settle Tag.isEmpty chain.slots
    length_slots := by simp [chain.length_slots] }

end Chain

end GradualMap
