import GradualMap.Map.Basic
import GradualMap.Traversal.Start

/-!
A walk over a map that does not change meanwhile. It visits each index of the current array once,
and at an index whose entries are still in the old array it shows those that will come there.
-/

namespace GradualMap

structure Walk (K V : Type) where
  /-- The slot each bucket is read from first. -/
  offset : Nat
  /-- The next index to visit, and how many are left to visit. -/
  nextIndex : Nat
  indicesLeft : Nat
  /-- What is left to read of the chain at hand, in the order of the visit. -/
  pending : List (Slot K V) := []
  /-- The index that entries of the chain at hand must be destined for, if it is an old chain. -/
  only : Option Nat := none
  /-- Entries still to come. -/
  remaining : Nat
  finished : Bool := false
  deriving DecidableEq, Repr

namespace Walk

variable {K V δ : Type}

def ofMap (map : Map K V) : Action (KeyEnv δ) (Walk K V) := do
  let start ← Start.draw map.table.exponent
  return {
    offset := start.offset
    nextIndex := start.index
    indicesLeft := bucketCount map.table.exponent
    remaining := map.table.count }

def len (walk : Walk K V) : Nat :=
  if walk.finished then 0 else walk.remaining

/-- The first entry among slots that belongs to the index at hand, and the slots after it. -/
def firstWanted (scheme : KeyScheme K δ) (table : Table K V) (only : Option Nat) :
    List (Slot K V) → Action (KeyEnv δ) (Option (Entry K V × List (Slot K V)))
  | [] => return none
  | slot :: rest => do
    match slot.live? with
    | none => firstWanted scheme table only rest
    | some (top, entry) =>
      let wanted ← match only with
        | none => pure true
        | some index => table.destinedFor scheme entry.key top index
      if wanted then return some (entry, rest)
      else firstWanted scheme table only rest

/-- Turns to the next index and the chain that has its entries. -/
def visit (table : Table K V) (walk : Walk K V) : Except Abort (Walk K V) := do
  let (era, index) ← table.source walk.nextIndex
  let chain ← table.chain era index
  return { walk with
    nextIndex := (walk.nextIndex + 1) % bucketCount table.exponent
    indicesLeft := walk.indicesLeft - 1
    pending := chain.rotated walk.offset
    only := if era = .former then some walk.nextIndex else none }

/-- Reads on in the chain at hand. -/
def resume (scheme : KeyScheme K δ) (table : Table K V) (walk : Walk K V) :
    Action (KeyEnv δ) (Option (K × V) × Walk K V) := do
  match ← firstWanted scheme table walk.only walk.pending with
  | some (entry, pending) =>
    return (some (entry.key, entry.value), { walk with pending, remaining := walk.remaining - 1 })
  | none => return (none, { walk with pending := [] })

/-- Visits up to `indices` more indices until one of them shows an entry. -/
def advance (scheme : KeyScheme K δ) (table : Table K V) :
    (indices : Nat) → Walk K V → Action (KeyEnv δ) (Option (K × V) × Walk K V)
  | 0, walk => return (none, { walk with finished := true })
  | indices + 1, walk => do
    match ← resume scheme table (← .check (walk.visit table)) with
    | (some pair, walk) => return (some pair, walk)
    | (none, walk) => advance scheme table indices walk

/-- The next entry, and the walk after it. -/
def next (scheme : KeyScheme K δ) (map : Map K V) (walk : Walk K V) :
    Action (KeyEnv δ) (Option (K × V) × Walk K V) := do
  if walk.finished || walk.remaining = 0 then
    return (none, { walk with finished := true })
  .check (map.latch.check .iterationDuringWrite)
  match ← resume scheme map.table walk with
  | (some pair, walk) => return (some pair, walk)
  | (none, walk) => advance scheme map.table walk.indicesLeft walk

/-- Up to `limit` entries. -/
def take (scheme : KeyScheme K δ) (map : Map K V) :
    (limit : Nat) → Walk K V → Action (KeyEnv δ) (List (K × V) × Walk K V)
  | 0, walk => return ([], walk)
  | limit + 1, walk => do
    match ← walk.next scheme map with
    | (none, walk) => return ([], walk)
    | (some pair, walk) =>
      let (pairs, walk) ← take scheme map limit walk
      return (pair :: pairs, walk)

end Walk

/-- The entries of a map in the order of a fresh walk. -/
def Map.toList {K V δ : Type} (scheme : KeyScheme K δ) (map : Map K V) :
    Action (KeyEnv δ) (List (K × V)) := do
  let walk ← Walk.ofMap map
  return (← walk.take scheme map (walk.remaining + 1)).1

end GradualMap
