import GradualMap.Table.Evacuation

/-!
Making room for a key: the slot that has it, or a free slot in its chain.
-/

namespace GradualMap

inductive Claim where
  | occupied (pos : Position)
  /-- A free slot of the current array. -/
  | vacant (index offset : Nat)
  deriving DecidableEq, Repr

namespace Table

variable {K V δ : Type}

/-- The first insert into a table allocates its array. -/
def reserve : TableAction K V δ Unit := do
  let { current, exponent, .. } ← read
  unless current.isAllocated do
    let current ← .second (Env.allocate exponent)
    modify fun table => { table with current }

/-- Whether the next new entry must start a resize first. -/
def mustGrow (table : Table K V) : Bool :=
  table.resize.isNone
    && (overloaded (table.count + 1) table.exponent
      || tooScattered table.overflowCount table.exponent)

/-- Growth invalidates the slot found, so the search starts over after it. -/
def claimWithin (scheme : KeyScheme K δ) (key : K) (hash : UInt64) :
    (rounds : Nat) → TableAction K V δ Claim
  | 0 => Action.abort .growthRestarts
  | rounds + 1 => do
    let index := bucketIndex hash (← read).exponent
    growWork scheme index
    let chain ← .check ((← read).current.fetch index)
    match ← onKeys (chain.probe scheme key hash) with
    | .found offset => return .occupied ⟨.current, index, offset⟩
    | .missing free =>
      if (← read).mustGrow then
        startGrowth
        claimWithin scheme key hash rounds
      else
        match free with
        | some offset => return .vacant index offset
        | none =>
          linkOverflow index
          return .vacant index chain.slots.length

/-- Finds the slot of a key for writing, or a free one. A table grows by doubling at most once for
each exponent there is. -/
def claim (scheme : KeyScheme K δ) (key : K) (hash : UInt64) : TableAction K V δ Claim := do
  reserve
  claimWithin scheme key hash (exponentLimit + 2)

/-- Stores an entry in a free slot. -/
def fill (index offset : Nat) (hash : UInt64) (entry : Entry K V) : TableAction K V δ Unit := do
  setCurrent index offset (.full (topHash hash) entry)
  modify fun table => { table with count := table.count + 1 }

end Table

end GradualMap
