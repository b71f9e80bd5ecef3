import GradualMap.Table.Find

/-!
Growth. Its start moves no entry: the current array becomes the old one, and every later write
evacuates the old chain it is about to touch and one chain more, so that each resize ends after at
most one write per old chain, whatever keys are written.
-/

namespace GradualMap

/-- Where an entry of an old chain goes in an array twice the size. -/
inductive Half where
  | low
  | high
  deriving DecidableEq, Repr

def Half.tag : Half → Tag
  | .low => .evacuatedLow
  | .high => .evacuatedHigh

/-- What decides where the entries of an old array go. -/
structure Routing where
  seed : UInt64
  sameSize : Bool
  oldSize : Nat
  deriving DecidableEq, Repr

namespace Routing

variable {K δ : Type}

/-- The half an entry goes to, and its hash byte there. A key that does not equal itself goes where
the lowest bit of its old hash byte says, and gets a fresh one that spreads it the next time. -/
def route (routing : Routing) (scheme : KeyScheme K δ) (top : UInt8) (key : K) :
    Action (KeyEnv δ) (Half × UInt8) := do
  if routing.sameSize then
    return (.low, top)
  let hash ← scheme.rehash key routing.seed
  if ← scheme.selfEqual key then
    return (if hash.toNat / routing.oldSize % 2 = 1 then .high else .low, top)
  return (if top.toNat % 2 = 1 then .high else .low, topHash hash)

/-- The chain of the new array that a half of old chain `old` goes to. -/
def target (routing : Routing) (old : Nat) : Half → Nat
  | .low => old
  | .high => old + routing.oldSize

end Routing

/-- How many entries each half has received. -/
structure Filled where
  low : Nat := 0
  high : Nat := 0
  deriving DecidableEq, Repr

namespace Filled

def count (filled : Filled) : Half → Nat
  | .low => filled.low
  | .high => filled.high

def add (filled : Filled) : Half → Filled
  | .low => { filled with low := filled.low + 1 }
  | .high => { filled with high := filled.high + 1 }

end Filled

/-- How many evacuated chains the cursor passes in one step, apart from the one just evacuated. -/
def maxCursorScan : Nat := 1024

namespace Table

variable {K V δ : Type}

/-- Counts one more overflow bucket in the estimate, if a draw says so. -/
def countOverflow : TableAction K V δ Unit := do
  let exponent := (← read).exponent
  let counts ←
    if exponent < 16 then pure true
    else countsOverflow exponent <$> onKeys KeyEnv.draw
  if counts then
    modify fun table =>
      { table with overflowCount := min (table.overflowCount + 1) maxOverflowCount }

/-- Links an overflow bucket at the end of a chain of the current array. -/
def linkOverflow (index : Nat) : TableAction K V δ Unit := do
  modify fun table => { table with current := table.current.link index }
  countOverflow
  let table ← read
  record (.overflowLinked table.overflowCount table.current.linked)

/-- Doubles the table if one more entry would overload it, and otherwise packs it anew at its
size. The array is allocated first, so that a failure changes nothing. -/
def startGrowth : TableAction K V δ Unit := do
  let { count, exponent, overflowCount, .. } ← read
  let bigger := overloaded (count + 1) exponent
  let grown := if bigger then exponent + 1 else exponent
  let fresh ← .second (Env.allocate grown)
  record (.growthStarted exponent grown count overflowCount (!bigger))
  modify fun table =>
    { table with
      exponent := grown
      overflowCount := 0
      current := fresh
      resize := some { array := table.current, sameSize := !bigger, cursor := 0 } }

/-- Appends a slot to a chain that is being filled from its first slot on; `next` is the offset to
fill. A bucket is linked when all before it are full. -/
def place (index next : Nat) (slot : Slot K V) : TableAction K V δ Unit := do
  let chain ← .check ((← read).current.fetch index)
  if next = chain.slots.length then
    modify fun table => { table with current := (table.current.link index).setSlot index next slot }
    countOverflow
  else if next ≠ 0 ∧ next % bucketSize = 0 then
    Action.abort .tailLinked
  else
    setCurrent index next slot

/-- Evacuates the slots of old chain `old` from `offset` on. An entry is taken out before its key is
hashed, and its slot tagged before it is placed. -/
def evacuateSlots (scheme : KeyScheme K δ) (routing : Routing) (old : Nat) :
    List (Slot K V) → (offset : Nat) → Filled → TableAction K V δ Unit
  | [], _, _ => pure ()
  | slot :: rest, offset, filled => do
    match slot.tag, slot.entry with
    | .emptyRest, _ | .emptyOne, _ =>
      setFormer old offset { slot with tag := .evacuatedEmpty }
      evacuateSlots scheme routing old rest (offset + 1) filled
    | .full top, some entry =>
      setFormer old offset { slot with entry := none }
      let (half, top) ← onKeys (routing.route scheme top entry.key)
      setFormer old offset { tag := half.tag }
      place (routing.target old half) (filled.count half) (.full top entry)
      evacuateSlots scheme routing old rest (offset + 1) (filled.add half)
    | _, _ => Action.abort .corrupt

/-- Passes over evacuated chains from `cursor` on, at most `limit` of them. -/
def skipEvacuated (array : BucketArray K V) : (limit cursor : Nat) → Nat
  | 0, cursor => cursor
  | limit + 1, cursor =>
    if (array.chains[cursor]?).any Chain.isEvacuated then
      skipEvacuated array limit (cursor + 1)
    else
      cursor

/-- Moves the cursor past the chain just evacuated. At the end of the old array the resize is over
and the array is dropped with its overflow buckets. -/
def advanceCursor : TableAction K V δ Unit := do
  match (← read).resize with
  | none => pure ()
  | some { array, sameSize, cursor } =>
    let size := array.size
    let cursor := skipEvacuated array (min maxCursorScan (size - (cursor + 1))) (cursor + 1)
    if cursor = size then
      let { count, exponent, .. } ← read
      record (.growthComplete exponent count sameSize)
      modify fun table => { table with resize := none }
    else
      modify fun table =>
        { table with resize := table.resize.map fun resize => { resize with cursor } }

/-- Moves the entries of one old chain, unless that is done. -/
def evacuate (scheme : KeyScheme K δ) (old : Nat) : TableAction K V δ Unit := do
  let { seed, resize, .. } ← read
  match resize with
  | none => pure ()
  | some { array, sameSize, cursor } =>
    let size := array.size
    let chain ← .check (array.fetch old)
    unless chain.isEvacuated do
      evacuateSlots scheme { seed, sameSize, oldSize := size } old chain.slots 0 {}
    if old = cursor then
      advanceCursor

def evacuateNext (scheme : KeyScheme K δ) : TableAction K V δ Unit := do
  match (← read).resize with
  | none => pure ()
  | some { cursor, .. } => evacuate scheme cursor

/-- Evacuates the old chain that feeds current chain `index`, and the one under the cursor. -/
def growWork (scheme : KeyScheme K δ) (index : Nat) : TableAction K V δ Unit := do
  match (← read).resize with
  | none => pure ()
  | some { array, .. } =>
    let old ← .check (array.wrap index)
    evacuate scheme old
    evacuateNext scheme

def finishGrowthWithin (scheme : KeyScheme K δ) : (steps : Nat) → TableAction K V δ Unit
  | 0 => pure ()
  | steps + 1 => do
    if (← read).resize.isSome then
      evacuateNext scheme
      finishGrowthWithin scheme steps

/-- Runs a resize in flight to its end. Each step passes one chain of the old array at least. -/
def finishGrowth (scheme : KeyScheme K δ) : TableAction K V δ Unit := do
  match (← read).resize with
  | none => pure ()
  | some { array, .. } => finishGrowthWithin scheme (array.size + 1)

end Table

end GradualMap
