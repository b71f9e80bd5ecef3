import GradualMap.Map.Lookup

/-!
Writes. Each holds the write latch while it works, and hashes its key before that, so that a refused
key leaves the map as it is.
-/

namespace GradualMap.Map

variable {K V δ ρ : Type}

/-- The entry of a present key under a new value; the key is replaced if the scheme says so. -/
def overwrite (scheme : KeyScheme K δ) (key : K) (f : V → V) (entry : Entry K V) :
    Entry K V where
  key := if scheme.traits.replacesKey then key else entry.key
  value := f entry.value

/-- Inserts or overwrites, and answers the value before. -/
def insert? (scheme : KeyScheme K δ) (key : K) (value : V) : MapAction K V δ (Option V) := do
  let hash ← onKeys (scheme.hashKey key (← read).table.seed)
  writing <| onTable do
    match ← Table.claim scheme key hash with
    | .occupied pos =>
      let before ← Table.updateEntry pos (overwrite scheme key fun _ => value)
      return some before.value
    | .vacant index offset =>
      Table.fill index offset hash { key, value }
      return none

def insert (scheme : KeyScheme K δ) (key : K) (value : V) : MapAction K V δ (Option V) :=
  (insert? scheme key value).orAbort

/-- The value of a key, after `default` is inserted for an absent key and `f` is applied to what is
there. The default is computed only for an absent key, once there is room for it. -/
def getOrInsert? (scheme : KeyScheme K δ) (key : K) (default : StateM ρ (Except String V))
    (f : V → V) : Action ((Map K V × Env δ) × ρ) V := do
  let hash ← Action.first (onKeys (scheme.hashKey key (← Action.first read).table.seed))
  writingWith do
    match ← Action.first (onTable (Table.claim scheme key hash)) with
    | .occupied pos =>
      let before ← Action.first (onTable (Table.updateEntry pos (overwrite scheme key f)))
      return f before.value
    | .vacant index offset =>
      match ← Action.second default with
      | .error text => Action.abort (.raised text)
      | .ok value =>
        let value := f value
        Action.first (onTable (Table.fill index offset hash { key, value }))
        return value

def getOrInsert (scheme : KeyScheme K δ) (key : K) (default : StateM ρ (Except String V))
    (f : V → V) : Action ((Map K V × Env δ) × ρ) V :=
  (getOrInsert? scheme key default f).orAbort

/-- Removes a key and answers the stored pair. An empty map is not written. -/
def removePair? (scheme : KeyScheme K δ) (key : K) : MapAction K V δ (Option (K × V)) := do
  if (← read).isEmpty then
    onKeys (Table.probeEmpty scheme key)
    return none
  let hash ← onKeys (scheme.hashKey key (← read).table.seed)
  writing <| onTable <| Table.delete scheme key hash

def removePair (scheme : KeyScheme K δ) (key : K) : MapAction K V δ (Option (K × V)) :=
  (removePair? scheme key).orAbort

def remove? (scheme : KeyScheme K δ) (key : K) : MapAction K V δ (Option V) := do
  return (← removePair? scheme key).map (·.2)

def remove (scheme : KeyScheme K δ) (key : K) : MapAction K V δ (Option V) :=
  (remove? scheme key).orAbort

/-- Removes every entry; the array keeps its size. -/
def clear : MapAction K V δ Unit :=
  writing (onTable Table.clear)

/-- Keeps the entries that the closure answers `true` for, with the values it gives them. -/
def retain (scheme : KeyScheme K δ) (f : K → V → StateM ρ (V × Except String Bool)) :
    Action ((Map K V × Env δ) × ρ) Unit :=
  writingWith fun (({ table, latch, id }, env), own) =>
    let (result, ((table, env), own)) := Table.retain scheme f ((table, env), own)
    (result, (({ table, latch, id }, env), own))

/-- Inserts pairs one after the other; the first one that fails ends it. -/
def extend (scheme : KeyScheme K δ) (pairs : List (K × V)) : MapAction K V δ Unit :=
  pairs.forM fun (key, value) => discard <| insert scheme key value

/-- A map of pairs, sized for as many entries as `sizeHint` says. -/
def ofList (scheme : KeyScheme K δ) (pairs : List (K × V)) (sizeHint : Nat) :
    Action (Env δ) (Map K V) := do
  let map ← withCapacity sizeHint
  fun env =>
    let (result, (map, env)) := extend scheme pairs (map, env)
    (result.map fun _ => map, env)

end GradualMap.Map
