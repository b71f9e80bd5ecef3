import GradualMap.Table.Basic

/-!
Where an entry is. A chain that a resize has not reached yet is still read in the old array.
-/

namespace GradualMap

/-- What a scan of a chain for a key comes to: the slot with the key, or else the first slot that
is free for it. -/
inductive Probe where
  | found (offset : Nat)
  | missing (free : Option Nat)
  deriving DecidableEq, Repr

/-- Scans slots, the first of which has the given offset. Keys are compared only where the hash
byte agrees, and nothing lives past an empty rest. -/
def probe {K V δ : Type} (scheme : KeyScheme K δ) (key : K) (top : UInt8) :
    List (Slot K V) → (offset : Nat) → (free : Option Nat) → Action (KeyEnv δ) Probe
  | [], _, free => return .missing free
  | slot :: rest, offset, free =>
    match slot.tag, slot.entry with
    | .emptyRest, _ => return .missing (free <|> some offset)
    | .emptyOne, _ => probe scheme key top rest (offset + 1) (free <|> some offset)
    | .full top', some entry => do
      let hit ← if top' = top then scheme.same key entry.key else pure false
      if hit then return .found offset
      else probe scheme key top rest (offset + 1) free
    | _, _ => probe scheme key top rest (offset + 1) free

def Chain.probe {K V δ : Type} (chain : Chain K V) (scheme : KeyScheme K δ) (key : K)
    (hash : UInt64) : Action (KeyEnv δ) Probe :=
  GradualMap.probe scheme key (topHash hash) chain.slots 0 none

namespace Table

variable {K V δ : Type}

/-- Where the entries of a chain of the current array are: in the old chain that feeds it, or, once
that is evacuated, in the chain itself. -/
def source (table : Table K V) (index : Nat) : Except Abort (Era × Nat) :=
  match table.resize with
  | none => return (.current, index)
  | some resize => do
    let old ← resize.array.wrap index
    if ← resize.array.isEvacuated old then
      return (.current, index)
    return (.former, old)

/-- Whether evacuation will bring an entry of an old chain to the current chain `index`. The hash
decides, and for a key whose hash cannot be reproduced the lowest bit of its hash byte. -/
def destinedFor (scheme : KeyScheme K δ) (table : Table K V) (key : K) (top : UInt8)
    (index : Nat) : Action (KeyEnv δ) Bool :=
  match table.resize with
  | none => return true
  | some resize => do
    if resize.sameSize then
      return true
    if ← scheme.selfEqual key then
      let hash ← scheme.rehash key table.seed
      return bucketIndex hash table.exponent = index
    return index / resize.array.size % 2 = top.toNat % 2

/-- A look-up in an empty table hashes nothing, unless keys can be refused: then the key is hashed
once, with seed 0, so that a bad key is reported. -/
def probeEmpty (scheme : KeyScheme K δ) (key : K) : Action (KeyEnv δ) Unit := do
  if scheme.traits.mayRefuse then
    discard <| scheme.hashKey key 0

def find (scheme : KeyScheme K δ) (table : Table K V) (key : K) (hash : UInt64) :
    Action (KeyEnv δ) (Option Position) := do
  if table.count = 0 then
    return none
  let (era, index) ← .check (table.source (bucketIndex hash table.exponent))
  let chain ← .check (table.chain era index)
  match ← chain.probe scheme key hash with
  | .found offset => return some ⟨era, index, offset⟩
  | .missing _ => return none

def slotAt (table : Table K V) (pos : Position) : Except Abort (Slot K V) := do
  match (← table.chain pos.era pos.index).slots[pos.offset]? with
  | some slot => return slot
  | none => .error .corrupt

def isLive (table : Table K V) (pos : Position) : Bool :=
  match table.slotAt pos with
  | .ok slot => slot.live?.isSome
  | .error _ => false

def entryAt (table : Table K V) (pos : Position) : Except Abort (Entry K V) := do
  match (← table.slotAt pos).entry with
  | some entry => return entry
  | none => .error .corrupt

/-- Changes the entry of a slot and leaves its tag; answers the entry before. -/
def updateEntry (pos : Position) (f : Entry K V → Entry K V) :
    TableAction K V δ (Entry K V) := do
  let slot ← .check ((← read).slotAt pos)
  match slot.entry with
  | none => Action.abort .corrupt
  | some entry =>
    let slot := { slot with entry := some (f entry) }
    match pos.era with
    | .current => setCurrent pos.index pos.offset slot
    | .former => setFormer pos.index pos.offset slot
    return entry

/-- Looks up a key that came from the table. -/
def findStored (scheme : KeyScheme K δ) (table : Table K V) (key : K) :
    Action (KeyEnv δ) (Option (Entry K V)) := do
  if table.count = 0 then
    return none
  let hash ← scheme.rehash key table.seed
  match ← find scheme table key hash with
  | some pos => return some (← .check (table.entryAt pos))
  | none => return none

end Table

end GradualMap
