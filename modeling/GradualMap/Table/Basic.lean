import GradualMap.Bucket.Array
import GradualMap.Event
import GradualMap.Key.Scheme
import GradualMap.Table.Load

/-!
A table and the surroundings it works in: the state of its key scheme, the random stream, the
memory it is granted and the events it reports.
-/

namespace GradualMap

/-- A resize in flight. The entries move from `array` to the current array of the table, one chain
at a time. -/
structure Resize (K V : Type) where
  array : BucketArray K V
  /-- The new array has the same size: the resize only packs the chains. -/
  sameSize : Bool
  /-- Every chain below this index was evacuated. -/
  cursor : Nat
  deriving DecidableEq

structure Table (K V : Type) where
  /-- Entries in both arrays. -/
  count : Nat := 0
  /-- The current array has `2 ^ exponent` chains once it is allocated. -/
  exponent : Nat := 0
  /-- Estimate of the overflow buckets in the current array, exact below `2 ^ 16` buckets. -/
  overflowCount : Nat := 0
  seed : UInt64
  current : BucketArray K V := .unallocated
  resize : Option (Resize K V) := none
  deriving DecidableEq

/-- An array of `2 ^ 58` buckets, of 32 bytes or more each, fits no 64-bit address space. -/
def exponentLimit : Nat := 58

/-- What a table works in, apart from itself. -/
structure Env (δ : Type) where
  keys : KeyEnv δ
  /-- Whether there is memory for `2 ^ exponent` buckets. -/
  grants : Nat → Bool := fun _ => true
  /-- The events so far, the latest first. -/
  log : List Event := []
  /-- The identity of the next map. -/
  nextId : Nat := 1

namespace Env

variable {δ α : Type}

/-- Runs an operation that asks only the key scheme or the random stream. -/
def onKeys (act : Action (KeyEnv δ) α) : Action (Env δ) α := fun env =>
  let (result, keys) := act env.keys
  (result, { env with keys })

def record (event : Event) : Action (Env δ) Unit :=
  modify fun env => { env with log := event :: env.log }

/-- An array of empty chains, if there is memory for it. -/
def allocate {K V : Type} (exponent : Nat) : Action (Env δ) (BucketArray K V) := do
  if 64 ≤ exponent then
    Action.abort .shiftTooFar
  if exponent < exponentLimit && (← get).grants exponent then
    return .ofExponent exponent
  throw (.fault (.noMemory (bucketCount exponent)))

end Env

/-- The array that an entry sits in. -/
inductive Era where
  | current
  | former
  deriving DecidableEq, Repr

/-- A slot: its array, the index of its chain and its offset in the chain. -/
structure Position where
  era : Era
  index : Nat
  offset : Nat
  deriving DecidableEq, Repr

/-- The chain of a hash in an array of `2 ^ exponent` chains. -/
def bucketIndex (hash : UInt64) (exponent : Nat) : Nat :=
  hash.toNat % bucketCount exponent

abbrev TableAction (K V δ : Type) : Type → Type := Action (Table K V × Env δ)

namespace Table

variable {K V δ α : Type}

/-- Runs an operation that leaves the table alone. -/
def onKeys (act : Action (KeyEnv δ) α) : TableAction K V δ α :=
  .second (Env.onKeys act)

def record (event : Event) : TableAction K V δ Unit :=
  .second (Env.record event)

/-- The table as it is now. -/
def read : TableAction K V δ (Table K V) := fun (table, env) =>
  (.ok table, (table, env))

def modify (f : Table K V → Table K V) : TableAction K V δ Unit := fun (table, env) =>
  (.ok (), (f table, env))

/-- An empty table; nothing is allocated before the first insert. -/
def empty : Action (Env δ) (Table K V) := do
  return { seed := ← Env.onKeys KeyEnv.draw }

/-- A table for `capacity` entries. One chain alone is allocated by the first insert. -/
def withCapacity (capacity : Nat) : Action (Env δ) (Table K V) := do
  let exponent := exponentFor capacity
  let current ← if exponent = 0 then pure .unallocated else Env.allocate exponent
  return { exponent, current, seed := ← Env.onKeys KeyEnv.draw }

def array (table : Table K V) : Era → Except Abort (BucketArray K V)
  | .current => .ok table.current
  | .former => match table.resize with
    | some resize => .ok resize.array
    | none => .error .corrupt

def chain (table : Table K V) (era : Era) (index : Nat) : Except Abort (Chain K V) := do
  (← table.array era).fetch index

def setCurrent (index offset : Nat) (slot : Slot K V) : TableAction K V δ Unit :=
  modify fun table => { table with current := table.current.setSlot index offset slot }

def setFormer (index offset : Nat) (slot : Slot K V) : TableAction K V δ Unit :=
  modify fun table =>
    { table with
      resize := table.resize.map fun resize =>
        { resize with array := resize.array.setSlot index offset slot } }

/-- One entry less. -/
def countDown : TableAction K V δ Unit := do
  if (← read).count = 0 then
    Action.abort .underflow
  modify fun table => { table with count := table.count - 1 }

end Table

end GradualMap
