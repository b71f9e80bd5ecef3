import GradualMap.Table.Evacuation

/-!
Removing one entry or all of them.
-/

namespace GradualMap.Table

variable {K V δ : Type}

/-- A table that runs empty draws a new seed, so that keys found to collide cannot be replayed. -/
def reseed : TableAction K V δ Unit := do
  let seed ← onKeys KeyEnv.draw
  modify fun table => { table with seed }

def delete (scheme : KeyScheme K δ) (key : K) (hash : UInt64) :
    TableAction K V δ (Option (K × V)) := do
  let { count, exponent, .. } ← read
  if count = 0 then
    return none
  let index := bucketIndex hash exponent
  growWork scheme index
  let chain ← .check ((← read).current.fetch index)
  match ← onKeys (chain.probe scheme key hash) with
  | .missing _ => return none
  | .found offset =>
    let entry ← .check ((← read).entryAt ⟨.current, index, offset⟩)
    setCurrent index offset { tag := .emptyOne }
    modify fun table => { table with current := table.current.modify index (·.settleAt offset) }
    countDown
    if (← read).count = 0 then
      reseed
      record .emptied
    return some (entry.key, entry.value)

/-- Drops every entry and a resize in flight, and keeps the current array. -/
def clear : TableAction K V δ Unit := do
  unless (← read).count = 0 do
    modify fun table =>
      { table with
        count := 0
        overflowCount := 0
        current := table.current.reset
        resize := none }
    reseed
    record (.cleared (← read).exponent)

end GradualMap.Table
