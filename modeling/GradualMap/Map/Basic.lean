import GradualMap.Map.Latch
import GradualMap.Table.Assign
import GradualMap.Table.Retain

/-!
A map: a table, a latch that is held while it is written, and an identity that tells it from every
other map.
-/

namespace GradualMap

structure Map (K V : Type) where
  table : Table K V
  latch : Latch := {}
  id : Nat
  deriving DecidableEq

abbrev MapAction (K V δ : Type) : Type → Type := Action (Map K V × Env δ)

/-- The shape of a map at one moment. -/
structure Stats where
  len : Nat
  exponent : Nat
  buckets : Nat
  growing : Bool
  /-- The resize in flight keeps the size. -/
  sameSize : Bool
  /-- Every old chain below this index was evacuated. -/
  evacuated : Nat
  oldBuckets : Nat
  overflowEstimate : Nat
  overflowBuckets : Nat
  deriving DecidableEq, Repr

namespace Map

variable {K V δ ρ α : Type}

def len (map : Map K V) : Nat :=
  map.table.count

def isEmpty (map : Map K V) : Bool :=
  map.table.count = 0

def stats (map : Map K V) : Stats where
  len := map.table.count
  exponent := map.table.exponent
  buckets := bucketCount map.table.exponent
  growing := map.table.resize.isSome
  sameSize := map.table.resize.any (·.sameSize)
  evacuated := (map.table.resize.map (·.cursor)).getD 0
  oldBuckets := (map.table.resize.map (·.array.size)).getD 0
  overflowEstimate := map.table.overflowCount
  overflowBuckets := map.table.current.linked

/-- Gives a table an identity no other map of this environment has. -/
def ofTable (table : Table K V) : Action (Env δ) (Map K V) :=
  modifyGet fun env => ({ table, id := env.nextId }, { env with nextId := env.nextId + 1 })

/-- An empty map. Nothing is allocated before the first insert. -/
def empty : Action (Env δ) (Map K V) := do
  ofTable (← Table.empty)

/-- A map that takes `capacity` entries without doubling. -/
def withCapacity? (capacity : Nat) : Action (Env δ) (Map K V) := do
  ofTable (← Table.withCapacity capacity)

def withCapacity (capacity : Nat) : Action (Env δ) (Map K V) :=
  (withCapacity? capacity).orAbort

def onTable (act : TableAction K V δ α) : MapAction K V δ α :=
  fun ({ table, latch, id }, env) =>
    let (result, (table, env)) := act (table, env)
    (result, ({ table, latch, id }, env))

def onKeys (act : Action (KeyEnv δ) α) : MapAction K V δ α :=
  .second (Env.onKeys act)

/-- The map as it is now. -/
def read : MapAction K V δ (Map K V) := fun (map, env) =>
  (.ok map, (map, env))

def modify (f : Map K V → Map K V) : MapAction K V δ Unit := fun (map, env) =>
  (.ok (), (f map, env))

def acquire : MapAction K V δ Unit := do
  let latch ← .check (← read).latch.acquire
  modify fun map => { map with latch }

def release (state : Map K V × Env δ) : Map K V × Env δ :=
  ({ state.1 with latch := state.1.latch.release }, state.2)

/-- Holds the write latch for the time of an operation and releases it whatever comes of it. -/
def writing (act : MapAction K V δ α) : MapAction K V δ α := do
  acquire
  act.ensuring release

/-- The same for an operation with a closure that has a state of its own. -/
def writingWith (act : Action ((Map K V × Env δ) × ρ) α) :
    Action ((Map K V × Env δ) × ρ) α := do
  Action.first acquire
  act.ensuring fun (state, own) => (release state, own)

end Map

end GradualMap
