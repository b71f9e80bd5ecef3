import GradualMap.Proofs.Operation
import GradualMap.Proofs.Sweep
import GradualMap.Proofs.Walk

/-!
Calls: what a caller can ask of a map, one call at a time. A closure may have a state of its own; a
closure that raises would end the call in an abort, and is left out here.
-/

namespace GradualMap

open GradualMap.Action

/-- How a map is made. A capacity is a machine word. -/
inductive Origin where
  | empty
  | sized (capacity : UInt64)

inductive Call (K V ρ : Type) where
  | insert (key : K) (value : V)
  | getOrInsert (key : K) (default : StateM ρ V) (f : V → V)
  | get (key : K)
  | getPair (key : K)
  | contains (key : K)
  | adjust (key : K) (f : V → V)
  | remove (key : K)
  | removePair (key : K)
  | extend (pairs : List (K × V))
  | clear
  | retain (f : K → V → StateM ρ (V × Bool))
  /-- A walk that writes as many entries as there are `writes`. Whatever a caller makes its writes
  depend on, some list of functions does the same. -/
  | sweep (writes : List (V → V))
  /-- A walk that reads all entries. -/
  | list
  | len

inductive Answer (K V : Type) where
  | done
  | value (value : V)
  | value? (value : Option V)
  | pair? (pair : Option (K × V))
  | holds (answer : Bool)
  | pairs (pairs : List (K × V))
  | count (count : Nat)
  deriving DecidableEq

variable {K V δ ρ : Type}

def Origin.make? : Origin → Action (Env δ) (Map K V)
  | .empty => Map.empty
  | .sized capacity => Map.withCapacity? capacity.toNat

/-- A closure that does not raise. -/
def calmly (f : K → V → StateM ρ (V × Bool)) : K → V → StateM ρ (V × Except String Bool) :=
  fun key value => (fun (value, keep) => (value, .ok keep)) <$> f key value

theorem Keeps.not_raised_calmly (f : K → V → StateM ρ (V × Bool)) {shown kept : List (Entry K V)}
    {own own' : ρ} {text : String} : ¬ Keeps (calmly f) shown own (.error text) kept own' := by
  intro run
  generalize stopped : Except.error text = outcome at run
  induction run with
  | done => cases stopped
  | kept _ _ ih => exact ih stopped
  | dropped _ _ ih => exact ih stopped
  | raised answer => cases answer

namespace Call

/-- A call by a caller that handles faults. -/
def attempt (scheme : KeyScheme K δ) :
    Call K V ρ → Action ((Map K V × Env δ) × ρ) (Answer K V)
  | .insert key value => .value? <$> first (Map.insert? scheme key value)
  | .getOrInsert key default f => .value <$> Map.getOrInsert? scheme key (.ok <$> default) f
  | .get key => first do return .value? (← Map.onKeys ((← Map.read).get? scheme key))
  | .getPair key => first do return .pair? (← Map.onKeys ((← Map.read).getPair? scheme key))
  | .contains key => first do return .holds (← Map.onKeys ((← Map.read).contains? scheme key))
  | .adjust key f => .value? <$> first (Map.adjust scheme key f)
  | .remove key => .value? <$> first (Map.remove? scheme key)
  | .removePair key => .pair? <$> first (Map.removePair? scheme key)
  | .extend pairs => (fun _ => .done) <$> first (Map.extend scheme pairs)
  | .clear => (fun _ => .done) <$> first Map.clear
  | .retain f => (fun _ => .done) <$> Map.retain scheme (calmly f)
  | .sweep writes => first do
    let sweep ← Sweep.ofMap scheme
    return .pairs (← sweep.through writes).1
  | .list => first do return .pairs (← Map.onKeys ((← Map.read).toList scheme))
  | .len => first do return .count (← Map.read).len

theorem leaves_attempt (call : Call K V ρ) : Leaves (fun s : (Map K V × Env δ) × ρ =>
    Map.memory s.1) (call.attempt scheme) := by
  cases call with
  | insert => exact Map.leaves_insert?.first.map
  | getOrInsert => exact Map.leaves_getOrInsert?.map
  | get => exact (Map.leaves_read.bind fun _ => Map.leaves_onKeys.bind fun _ => leaves_pure).first
  | getPair =>
    exact (Map.leaves_read.bind fun _ => Map.leaves_onKeys.bind fun _ => leaves_pure).first
  | contains =>
    exact (Map.leaves_read.bind fun _ => Map.leaves_onKeys.bind fun _ => leaves_pure).first
  | adjust => exact Map.leaves_adjust.first.map
  | remove => exact (Map.leaves_removePair?.bind fun _ => leaves_pure).first.map
  | removePair => exact Map.leaves_removePair?.first.map
  | extend => exact Map.leaves_extend.first.map
  | clear => exact Map.leaves_clear.first.map
  | retain => exact Map.leaves_retain.map
  | sweep writes =>
    exact (Sweep.leaves_ofMap.bind fun _ => (Sweep.leaves_through writes).bind fun _ =>
      leaves_pure).first
  | list => exact (Map.leaves_read.bind fun _ => Map.leaves_onKeys.bind fun _ => leaves_pure).first
  | len => exact (Map.leaves_read.bind fun _ => leaves_pure).first

/-- A call that reads does not touch the map, whatever comes of it. -/
theorem ends_reading {α : Type} {act : Map K V → Action (KeyEnv δ) α} {answer : α → Answer K V}
    {map : Map K V} {env : Env δ} {own : ρ} {post : Answer K V → (Map K V × Env δ) × ρ → Prop}
    {fails : Failure → (Map K V × Env δ) × ρ → Prop} :
    Ends (first do return answer (← Map.onKeys (act (← Map.read)))) ((map, env), own) post fails ↔
      (act map).Ends env.keys (fun a keys => post (answer a) ((map, { env with keys }), own))
        (fun f keys => fails f ((map, { env with keys }), own)) := by
  rw [ends_first, ends_bind, Map.ends_read, ends_bind, Map.ends_onKeys]
  rfl

/-- A call by a caller that does not: a fault stops it. -/
def perform (scheme : KeyScheme K δ) (call : Call K V ρ) :
    Action ((Map K V × Env δ) × ρ) (Answer K V) :=
  (call.attempt scheme).orAbort

def performAll (scheme : KeyScheme K δ) :
    List (Call K V ρ) → Action ((Map K V × Env δ) × ρ) (List (Answer K V))
  | [] => return []
  | call :: calls => do
    let answer ← call.perform scheme
    return answer :: (← performAll scheme calls)

end Call

/-- A map is made and called; the answers come with the map in the end. -/
def session (scheme : KeyScheme K δ) (origin : Origin) (calls : List (Call K V ρ)) :
    Action (Env δ × ρ) (List (Answer K V) × Map K V) := do
  let map ← first origin.make?.orAbort
  fun (env, own) =>
    let (result, ((map, env), own)) := Call.performAll scheme calls ((map, env), own)
    (result.map (·, map), (env, own))

/-- The maps that calls lead to, if none of them aborts. Each may meet surroundings of its own. -/
inductive Reachable (scheme : KeyScheme K δ) : Map K V → Prop
  | made {map : Map K V} (origin : Origin) (env : Env δ) (run : (origin.make? env).1 = .ok map) :
      Reachable scheme map
  | called {before after : Map K V} {ρ : Type} {env env' : Env δ} {own own' : ρ}
      {result : Except Failure (Answer K V)} (call : Call K V ρ)
      (reachable : Reachable scheme before)
      (run : call.attempt scheme ((before, env), own) = (result, ((after, env'), own')))
      (calm : ∀ cause, result ≠ .error (.abort cause)) : Reachable scheme after

theorem calm_of_isSome {α : Type} {result : Except Failure α}
    (answered : result.toOption.isSome = true) (cause : Abort) :
    result ≠ .error (.abort cause) := by
  rintro rfl
  cases answered

theorem Reachable.after {scheme : KeyScheme K δ} {map : Map K V} (reachable : Reachable scheme map)
    (call : Call K V ρ) (env : Env δ) (own : ρ)
    (answered : (call.attempt scheme ((map, env), own)).1.toOption.isSome = true) :
    Reachable scheme (call.attempt scheme ((map, env), own)).2.1.1 :=
  .called call reachable rfl (calm_of_isSome answered)

theorem Reachable.performAll_ends {scheme : KeyScheme K δ} (calls : List (Call K V ρ)) :
    ∀ {map : Map K V}, Reachable scheme map → ∀ (env : Env δ) (own : ρ),
      Ends (Call.performAll scheme calls) ((map, env), own)
        (fun _ s => Reachable scheme s.1.1) fun _ _ => True := by
  induction calls with
  | nil => exact fun reachable _ _ => reachable
  | cons call calls ih =>
    intro map reachable env own
    unfold Call.performAll Call.perform
    rw [ends_bind, ends_orAbort]
    refine ends_run.mono ?_ fun _ _ _ => trivial
    rintro answer ⟨⟨after, env'⟩, own'⟩ run
    have onward : Reachable scheme after :=
      .called call reachable run fun _ failed => by cases failed
    rw [ends_bind]
    exact ih onward env' own'

theorem Reachable.afterAll {scheme : KeyScheme K δ} {map : Map K V}
    (reachable : Reachable scheme map) (calls : List (Call K V ρ)) (env : Env δ) (own : ρ)
    (answered : (Call.performAll scheme calls ((map, env), own)).1.toOption.isSome = true) :
    Reachable scheme (Call.performAll scheme calls ((map, env), own)).2.1.1 := by
  cases run : (Call.performAll scheme calls ((map, env), own)).1 with
  | error failure =>
    rw [run] at answered
    cases answered
  | ok answers => exact (reachable.performAll_ends calls env own).of_ok run

/-- A word for a capacity asks for `2 ^ 62` buckets at most. -/
theorem exponentFor_le (capacity : UInt64) : exponentFor capacity.toNat ≤ 62 := by
  by_contra large
  have full : overloaded capacity.toNat 62 = true :=
    overloaded_of_lt_exponentFrom (Nat.zero_le 62) (Nat.lt_of_not_le large)
  have small := capacity.toNat_lt
  have size : bucketCount 62 = 2 ^ 62 := rfl
  rw [overloaded_eq_true] at full
  omega

theorem exponentFor_lt (capacity : UInt64) : exponentFor capacity.toNat < 64 :=
  Nat.lt_of_le_of_lt (exponentFor_le capacity) (by decide)

namespace Map

variable {rules : Rules K}

/-- A map as it is made. -/
structure Fresh (rules : Rules K) (map : Map K V) : Prop where
  sound : map.Sound rules
  empty : map.table.entries = []
  idle : map.table.resize = none
  linked : map.table.current.linked = 0
  overflow : map.table.overflowCount = 0

theorem fresh {exponent id : Nat} {seed : UInt64} {current : BucketArray K V}
    (array : current = .unallocated ∧ exponent = 0 ∨
      current = .ofExponent exponent ∧ exponent < exponentLimit) :
    Fresh rules { table := { exponent, seed, current }, id } := by
  have none : current.entries = [] := by
    apply BucketArray.entries_eq_nil
    intro i bound
    rcases array with ⟨rfl, _⟩ | ⟨rfl, _⟩
    · exact absurd bound (Nat.not_lt_zero i)
    · rw [BucketArray.chainAt_ofExponent]
      rfl
  have all : Table.entries { exponent, seed, current } = [] := by
    simp [Table.entries, Table.former, none]
  have bare : current.linked = 0 := by
    rcases array with ⟨rfl, _⟩ | ⟨rfl, _⟩ <;> rfl
  refine ⟨⟨⟨?_, ?_, fun i bound => ?_, by simp⟩, ?_, rfl⟩, all, rfl, bare, rfl⟩
  · rw [all]
    rfl
  · rcases array with ⟨rfl, zero⟩ | ⟨rfl, small⟩
    · exact .inl ⟨rfl, zero, rfl⟩
    · exact .inr ⟨by simp, small⟩
  · rcases array with ⟨rfl, _⟩ | ⟨rfl, _⟩
    · exact absurd bound (Nat.not_lt_zero i)
    · rw [BucketArray.chainAt_ofExponent]
      exact Chain.sound_empty
  · exact fun _ => ⟨rfl, overloaded_eq_false.mpr (.inl (Nat.zero_le _))⟩

theorem empty_yields (rules : Rules K) (env : Env δ) :
    Yields (empty : Action (Env δ) (Map K V)) env fun map _ => Fresh rules map := by
  unfold empty Table.empty Yields
  rw [ends_bind, ends_bind, Env.ends_onKeys]
  exact (KeyEnv.draw_yields _).ends fun seed keys _ => fresh (.inl ⟨rfl, rfl⟩)

theorem withCapacity?_ends (rules : Rules K) {capacity : Nat} (small : exponentFor capacity < 64)
    (env : Env δ) :
    Ends (withCapacity? capacity : Action (Env δ) (Map K V)) env
      (fun map _ => Fresh rules map) (fun failure _ => Denied env.grants failure) := by
  unfold withCapacity? Table.withCapacity
  simp only [ends_bind]
  split
  · rename_i zero
    rw [ends_bind, ends_pure, ends_bind, Env.ends_onKeys]
    exact (KeyEnv.draw_yields _).ends fun seed keys _ => fresh (.inl ⟨rfl, zero⟩)
  · rw [ends_bind]
    refine (Env.allocate_ends small).mono ?_ fun failure s denied => denied.1
    rintro current env ⟨array, _, granted⟩
    rw [ends_bind, Env.ends_onKeys]
    exact (KeyEnv.draw_yields _).ends fun seed keys _ => fresh (.inr ⟨array, granted⟩)

end Map

theorem Origin.leaves_make? (origin : Origin) :
    Leaves Env.grants (origin.make? : Action (Env δ) (Map K V)) := by
  cases origin with
  | empty => exact Map.leaves_empty
  | sized capacity => exact Map.leaves_withCapacity?

theorem Origin.make?_ends (rules : Rules K) (origin : Origin) (env : Env δ) :
    Ends (origin.make? (K := K) (V := V)) env (fun map _ => map.Fresh rules)
      (fun failure _ => Denied env.grants failure) := by
  cases origin with
  | empty => exact (Map.empty_yields rules env).ends fun _ _ h => h
  | sized capacity => exact Map.withCapacity?_ends rules (exponentFor_lt capacity) env

end GradualMap
