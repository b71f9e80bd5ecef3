import GradualMap.Map.Basic

/-!
Look-ups. They read the map and leave it alone; each has a form that answers faults, marked by `?`,
and one that is stopped by them.
-/

namespace GradualMap.Map

variable {K V δ : Type}

/-- Where a key is. An empty map is looked up without regard to the write latch. -/
def position? (scheme : KeyScheme K δ) (map : Map K V) (key : K) :
    Action (KeyEnv δ) (Option Position) := do
  if map.isEmpty then
    Table.probeEmpty scheme key
    return none
  .check (map.latch.check .readDuringWrite)
  let hash ← scheme.hashKey key map.table.seed
  map.table.find scheme key hash

/-- The stored key comes with the value; it can differ from the key asked for. -/
def getPair? (scheme : KeyScheme K δ) (map : Map K V) (key : K) :
    Action (KeyEnv δ) (Option (K × V)) := do
  match ← map.position? scheme key with
  | none => return none
  | some pos =>
    let entry ← .check (map.table.entryAt pos)
    return some (entry.key, entry.value)

def get? (scheme : KeyScheme K δ) (map : Map K V) (key : K) : Action (KeyEnv δ) (Option V) := do
  return (← map.getPair? scheme key).map (·.2)

def contains? (scheme : KeyScheme K δ) (map : Map K V) (key : K) : Action (KeyEnv δ) Bool := do
  return (← map.position? scheme key).isSome

def getPair (scheme : KeyScheme K δ) (map : Map K V) (key : K) :
    Action (KeyEnv δ) (Option (K × V)) :=
  (map.getPair? scheme key).orAbort

def get (scheme : KeyScheme K δ) (map : Map K V) (key : K) : Action (KeyEnv δ) (Option V) :=
  (map.get? scheme key).orAbort

def contains (scheme : KeyScheme K δ) (map : Map K V) (key : K) : Action (KeyEnv δ) Bool :=
  (map.contains? scheme key).orAbort

/-- Changes the value of a key in place and answers the new value. Like a look-up it only checks
the write latch. -/
def adjust (scheme : KeyScheme K δ) (key : K) (f : V → V) : MapAction K V δ (Option V) := do
  match ← onKeys ((← read).position? scheme key).orAbort with
  | none => return none
  | some pos =>
    let before ← onTable <| Table.updateEntry pos fun entry =>
      { entry with value := f entry.value }
    return some (f before.value)

end GradualMap.Map
