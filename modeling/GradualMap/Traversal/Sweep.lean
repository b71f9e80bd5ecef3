import GradualMap.Map.Basic
import GradualMap.Traversal.Start

/-!
A walk over a map that writes the values it visits. No resize is in flight meanwhile, so it goes
over the buckets of the current array in any order and ends when all entries were seen.
-/

namespace GradualMap

structure Sweep where
  /-- The buckets to come, as chain index and depth. -/
  buckets : List (Nat × Nat)
  /-- The slots left in the bucket at hand. -/
  pending : List Position := []
  /-- Entries still to come. -/
  remaining : Nat
  deriving DecidableEq, Repr

namespace Sweep

variable {K V δ : Type}

/-- Ends a resize in flight before the walk starts. -/
def ofMap (scheme : KeyScheme K δ) : MapAction K V δ Sweep := do
  Map.writing <| Map.onTable <| Table.finishGrowth scheme
  let start ← Map.onKeys (Start.draw (← Map.read).table.exponent)
  let map ← Map.read
  return { buckets := map.table.current.places start.index, remaining := map.table.count }

def len (sweep : Sweep) : Nat :=
  sweep.remaining

/-- The slots of a bucket of the current array. -/
def slotsOf (index depth : Nat) : List Position :=
  (List.range bucketSize).map fun slot => ⟨.current, index, bucketSize * depth + slot⟩

/-- The first of some slots with an entry, and the slots after it. -/
def firstLive (table : Table K V) : List Position → Option (Position × List Position)
  | [] => none
  | pos :: rest => if table.isLive pos then some (pos, rest) else firstLive table rest

/-- The slot of the next entry among `pending` and the buckets after it, and what is left of both
then. -/
def locate (table : Table K V) :
    (buckets : List (Nat × Nat)) → (pending : List Position) →
      Option Position × List (Nat × Nat) × List Position
  | buckets, pending =>
    match firstLive table pending, buckets with
    | some (pos, pending), _ => (some pos, buckets, pending)
    | none, [] => (none, [], [])
    | none, (index, depth) :: buckets => locate table buckets (slotsOf index depth)

/-- The next entry with its new value, and the walk after it. -/
def next (f : V → V) (sweep : Sweep) : MapAction K V δ (Option (K × V) × Sweep) := do
  if sweep.remaining = 0 then
    return (none, sweep)
  match locate (← Map.read).table sweep.buckets sweep.pending with
  | (none, buckets, pending) => return (none, { sweep with buckets, pending })
  | (some pos, buckets, pending) =>
    let before ← Map.onTable <| Table.updateEntry pos fun entry =>
      { entry with value := f entry.value }
    return (some (before.key, f before.value),
      { buckets, pending, remaining := sweep.remaining - 1 })

/-- Up to `limit` entries. -/
def take (f : V → V) : (limit : Nat) → Sweep → MapAction K V δ (List (K × V) × Sweep)
  | 0, sweep => return ([], sweep)
  | limit + 1, sweep => do
    match ← sweep.next f with
    | (none, sweep) => return ([], sweep)
    | (some pair, sweep) =>
      let (pairs, sweep) ← take f limit sweep
      return (pair :: pairs, sweep)

end Sweep

end GradualMap
