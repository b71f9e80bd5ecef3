import GradualMap.Proofs.Keys
import GradualMap.Proofs.Unison

/-!
Every map there is. A request is a call whose closures may raise; a map arises from requests whatever
became of them, those that aborted included. Of such a map little is known but its chains: these are
well linked, and a request adds to them at their ends alone.
-/

namespace GradualMap

open GradualMap.Action

variable {K V δ ρ : Type}

/-- What a caller can ask of a map, with closures that may raise. -/
inductive Request (K V ρ : Type) where
  | plain (call : Call K V ρ)
  | getOrInsert (key : K) (default : StateM ρ (Except String V)) (f : V → V)
  | retain (f : K → V → StateM ρ (V × Except String Bool))

def Request.attempt (scheme : KeyScheme K δ) :
    Request K V ρ → Action ((Map K V × Env δ) × ρ) (Answer K V)
  | .plain call => call.attempt scheme
  | .getOrInsert key default f => .value <$> Map.getOrInsert? scheme key default f
  | .retain f => (fun _ => .done) <$> Map.retain scheme f

/-- The maps that requests lead to, however they ended. Each may meet surroundings of its own. -/
inductive Arises (scheme : KeyScheme K δ) : Map K V → Prop
  | made {map : Map K V} (origin : Origin) (env : Env δ) (run : (origin.make? env).1 = .ok map) :
      Arises scheme map
  | asked {before : Map K V} {ρ : Type} (request : Request K V ρ) (arises : Arises scheme before)
      (env : Env δ) (own : ρ) :
      Arises scheme (request.attempt scheme ((before, env), own)).2.1.1

theorem Reachable.arises {scheme : KeyScheme K δ} {map : Map K V}
    (reachable : Reachable scheme map) : Arises scheme map := by
  induction reachable with
  | made origin env run => exact .made origin env run
  | @called _ after _ env _ own _ _ call _ run calm ih =>
    have asked : Arises scheme (call.attempt scheme ((_, env), own)).2.1.1 :=
      .asked (.plain call) ih env own
    rwa [run] at asked

variable {scheme scheme' : KeyScheme K δ} {calm : KeyEnv δ → Prop}
  {along : Table K V × List Event → Prop}

theorem Request.twin_attempt (enduring : Table.Enduring along)
    (accord : scheme.Accord scheme' calm) (request : Request K V ρ) :
    Twin (fun s : (Map K V × Env δ) × ρ => Map.Within along calm s.1) (request.attempt scheme)
      (request.attempt scheme') := by
  cases request with
  | plain call => exact call.twin_attempt enduring accord
  | getOrInsert key default f => exact (Map.twin_getOrInsert? enduring accord).map
  | retain f => exact (Map.twin_retain enduring accord).map

theorem KeyScheme.Accord.refl (scheme : KeyScheme K δ) : scheme.Accord scheme fun _ => True :=
  ⟨rfl, fun _ _ _ _ => ⟨rfl, trivial⟩, fun _ _ _ _ => ⟨rfl, trivial⟩, fun _ _ => trivial⟩

/-- Whatever comes of a request, it takes the buckets of the table some steps on. -/
theorem Request.relinked (request : Request K V ρ) (map : Map K V) (env : Env δ) (own : ρ) :
    Table.Relinked (map.table, env.log)
      ((request.attempt scheme ((map, env), own)).2.1.1.table,
        (request.attempt scheme ((map, env), own)).2.1.2.log) := by
  have enduring : Table.Enduring (Table.Relinked (map.table, env.log)) :=
    fun step path => path.tail step
  exact (request.twin_attempt enduring (.refl scheme) ((map, env), own) ⟨.refl, trivial⟩).2.1

/-- A map is made without overflow buckets. -/
theorem Origin.make?_bare (origin : Origin) (env : Env δ) :
    Ends (origin.make? (K := K) (V := V)) env
      (fun map _ => map.table.current.Bare ∧ map.table.resize = none) fun _ _ => True := by
  cases origin with
  | empty =>
    change Ends Map.empty env _ _
    unfold Map.empty Table.empty
    rw [ends_bind, ends_bind, Env.ends_onKeys]
    exact (KeyEnv.draw_yields _).ends fun _ _ _ => ⟨BucketArray.bare_unallocated, rfl⟩
  | sized capacity =>
    change Ends (Map.withCapacity? _) env _ _
    unfold Map.withCapacity? Table.withCapacity
    simp only [ends_bind]
    split
    · rw [ends_bind, ends_pure, ends_bind, Env.ends_onKeys]
      exact (KeyEnv.draw_yields _).ends fun _ _ _ => ⟨BucketArray.bare_unallocated, rfl⟩
    · rw [ends_bind]
      refine (Env.allocate_ends (exponentFor_lt capacity)).mono ?_ fun _ _ _ => trivial
      rintro current env' ⟨rfl, _⟩
      rw [ends_bind, Env.ends_onKeys]
      exact (KeyEnv.draw_yields _).ends fun _ _ _ => ⟨BucketArray.bare_ofExponent _, rfl⟩

/-- What lasts of an array holds of the arrays of every map. -/
theorem Arises.each {holds : BucketArray K V → Prop} (lasting : BucketArray.Lasting holds)
    {map : Map K V} (arises : Arises scheme map) : map.table.Each holds := by
  induction arises with
  | made origin env run =>
    obtain ⟨bare, idle⟩ := (origin.make?_bare env).of_ok run
    exact ⟨lasting.bare bare, by simp [idle]⟩
  | asked request _ env own ih => exact (request.relinked _ env own).each lasting ih

theorem Arises.tiled {map : Map K V} (arises : Arises scheme map) : map.table.Tiled :=
  arises.each BucketArray.lasting_tiled

/-- The chains of a map, at rest and while it works. -/
structure Map.KeepsChains (scheme : KeyScheme K δ) (map : Map K V) : Prop where
  chains : map.table.WellLinked
  /-- In every chain a bucket comes behind those that were linked before it. -/
  order : map.table.InOrder
  /-- A request, whether or not it is answered, adds to a chain at its end alone, unless the log
  tells that it has replaced or emptied the array. -/
  request : ∀ {ρ : Type} (request : Request K V ρ) (env : Env δ) (own : ρ),
    Table.Chained (map.table, env.log)
      ((request.attempt scheme ((map, env), own)).2.1.1.table,
        (request.attempt scheme ((map, env), own)).2.1.2.log)

/-- Whatever requests a map has seen, and however they ended. -/
theorem chains_well_linked {map : Map K V} (arises : Arises scheme map) : map.KeepsChains scheme :=
  ⟨arises.tiled.wellLinked, arises.each BucketArray.lasting_inOrder,
    fun request env own => (request.relinked map env own).chained⟩

/-- Amid a doubling, with chains of several buckets in both arrays, a default raises after a bucket
was linked for its value. -/
theorem chains_well_linked_after_raise : ∃ map : Map UInt64 Nat,
    (map.table.resize.map fun resize => resize.array.linked) = some 2 ∧
    map.table.current.linked = 3 ∧ map.table.count = 27 ∧
    map.KeepsChains (Key.Masked.scheme {}) := by
  have made : Arises (V := Nat) (Key.Masked.scheme {}) _ := .made .empty (.lenient {}) rfl
  let keys := (List.range 16).map (8 * ·) ++ (List.range 11).map (8 * · + 1)
  let fill : Request UInt64 Nat Unit := .plain (.extend (keys.map fun n => (n.toUInt64, n)))
  let raise : Request UInt64 Nat Unit := .getOrInsert 200 (pure (.error "no value")) id
  obtain ⟨map, arises, facts⟩ : ∃ map : Map UInt64 Nat, Arises (Key.Masked.scheme {}) map ∧
      (map.table.resize.map fun resize => resize.array.linked) = some 2 ∧
      map.table.current.linked = 3 ∧ map.table.count = 27 :=
    ⟨_, .asked raise (.asked fill made (.lenient {}) ()) (.lenient {}) (), by decide +kernel⟩
  exact ⟨map, facts.1, facts.2.1, facts.2.2, chains_well_linked arises⟩

end GradualMap
