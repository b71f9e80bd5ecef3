import GradualMap.Map.Basic
import GradualMap.Traversal.Start

/-!
A walk over a map that may be written, and may grow, between two steps. The cursor keeps the size
the table had at the start: index `j` of that time has become every index that is `j` modulo the old
size, and one step of the walk collects all of those.
-/

namespace GradualMap

/-- An entry collected and not yet shown. -/
inductive Pending (K V : Type) where
  /-- Looked up again when it is shown. -/
  | key (key : K)
  /-- A key that does not equal itself cannot be looked up, and is shown as collected. -/
  | copied (key : K) (value : V)
  deriving DecidableEq, Repr

structure Cursor (K V : Type) where
  mapId : Nat
  /-- The exponent of the table at the start. -/
  exponent : Nat
  /-- The slot each bucket is read from first. -/
  offset : Nat
  /-- The next index of the old size to collect, and how many are left. -/
  nextIndex : Nat
  indicesLeft : Nat
  pending : List (Pending K V) := []
  finished : Bool
  deriving DecidableEq, Repr

abbrev CursorAction (K V δ : Type) : Type → Type := Action (Cursor K V × KeyEnv δ)

namespace Cursor

variable {K V δ : Type}

def ofMap (map : Map K V) : Action (KeyEnv δ) (Cursor K V) := do
  let exponent := map.table.exponent
  let start ← Start.draw exponent
  return {
    mapId := map.id
    exponent
    offset := start.offset
    nextIndex := start.index
    indicesLeft := bucketCount exponent
    finished := map.isEmpty }

def read : CursorAction K V δ (Cursor K V) := fun (cursor, keys) =>
  (.ok cursor, (cursor, keys))

def modify (f : Cursor K V → Cursor K V) : CursorAction K V δ Unit := fun (cursor, keys) =>
  (.ok (), (f cursor, keys))

/-- Queues what a collected slot will show. -/
def collectSlots (scheme : KeyScheme K δ) (table : Table K V) (only : Option Nat) :
    List (Slot K V) → CursorAction K V δ Unit
  | [] => pure ()
  | slot :: rest => do
    match slot.live? with
    | none => pure ()
    | some (top, entry) =>
      let wanted ← match only with
        | none => pure true
        | some index => .second (table.destinedFor scheme entry.key top index)
      if wanted then
        let item := if ← .second (scheme.selfEqual entry.key) then .key entry.key
          else .copied entry.key entry.value
        modify fun cursor => { cursor with pending := cursor.pending ++ [item] }
    collectSlots scheme table only rest

/-- The indices below `size` that are `first` modulo `step`, from `first` on. -/
def classOf (first step size : Nat) : List Nat :=
  (List.range ((size - first + step - 1) / step)).map (first + step * ·)

/-- Queues the entries of index `first` of the old size, from wherever they are now. -/
def collect (scheme : KeyScheme K δ) (table : Table K V) (first : Nat) :
    CursorAction K V δ Unit := do
  unless table.count = 0 do
    let cursor ← read
    (classOf first (bucketCount cursor.exponent) table.current.size).forM fun index => do
      let (era, source) ← .check (table.source index)
      let chain ← .check (table.chain era source)
      let only := if era = .former then some index else none
      collectSlots scheme table only (chain.rotated cursor.offset)

/-- Shows the first of the queued entries that is still in the table. -/
def drain (scheme : KeyScheme K δ) (table : Table K V) :
    List (Pending K V) → CursorAction K V δ (Option (K × V))
  | [] => return none
  | item :: rest => do
    modify fun cursor => { cursor with pending := rest }
    match item with
    | .copied key value => return some (key, value)
    | .key key =>
      match ← .second (table.findStored scheme key) with
      | some entry => return some (entry.key, entry.value)
      | none => drain scheme table rest

/-- Visits up to `indices` more indices until one of them shows an entry. -/
def advance (scheme : KeyScheme K δ) (table : Table K V) :
    (indices : Nat) → CursorAction K V δ (Option (K × V))
  | 0 => do
    modify fun cursor => { cursor with finished := true }
    return none
  | indices + 1 => do
    let index := (← read).nextIndex
    modify fun cursor =>
      { cursor with
        nextIndex := (index + 1) % bucketCount cursor.exponent
        indicesLeft := indices }
    collect scheme table index
    match ← drain scheme table (← read).pending with
    | some pair => return some pair
    | none => advance scheme table indices

/-- The next entry, as the map has it now. -/
def next (scheme : KeyScheme K δ) (map : Map K V) : CursorAction K V δ (Option (K × V)) := do
  let cursor ← read
  unless map.id = cursor.mapId do
    Action.abort .foreignCursor
  if cursor.finished then
    return none
  .check (map.latch.check .iterationDuringWrite)
  match ← drain scheme map.table cursor.pending with
  | some pair => return some pair
  | none => advance scheme map.table (← read).indicesLeft

end Cursor

end GradualMap
