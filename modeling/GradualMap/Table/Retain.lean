import GradualMap.Table.Remove

/-!
Removing the entries that a closure does not keep. The closure may write the values it sees, has a
state of its own and may give up with a text; what it decided until then stays done.
-/

namespace GradualMap.Table

variable {K V δ ρ : Type}

/-- Shows the live slots of chain `index`, from `offset` on, to the closure. -/
def retainSlots (f : K → V → StateM ρ (V × Except String Bool)) (index : Nat) :
    List (Slot K V) → (offset : Nat) → Action ((Table K V × Env δ) × ρ) Unit
  | [], _ => pure ()
  | slot :: rest, offset => do
    match slot.live? with
    | none => pure ()
    | some (top, entry) =>
      let (value, verdict) ← Action.second (f entry.key entry.value)
      Action.first (setCurrent index offset (.full top { entry with value }))
      match verdict with
      | .ok true => pure ()
      | .ok false =>
        Action.first (setCurrent index offset { tag := .emptyOne })
        Action.first countDown
      | .error text => Action.abort (.raised text)
    retainSlots f index rest (offset + 1)

def retainChain (f : K → V → StateM ρ (V × Except String Bool)) (index : Nat) :
    Action ((Table K V × Env δ) × ρ) Unit := do
  let chain ← .check ((← Action.first read).current.fetch index)
  retainSlots f index chain.slots 0
  Action.first <| modify fun table =>
    { table with current := table.current.modify index Chain.settleEnd }

/-- Ends a resize in flight and keeps the entries the closure answers `true` for. -/
def retain (scheme : KeyScheme K δ) (f : K → V → StateM ρ (V × Except String Bool)) :
    Action ((Table K V × Env δ) × ρ) Unit := do
  unless (← Action.first read).count = 0 do
    Action.first (finishGrowth scheme)
    let size := (← Action.first read).current.size
    (List.range size).forM (retainChain f)
    if (← Action.first read).count = 0 then
      Action.first reseed

end GradualMap.Table
