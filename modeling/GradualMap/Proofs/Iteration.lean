import GradualMap.Proofs.Keys
import GradualMap.Proofs.Simulation

/-!
A reading walk over any map that calls lead to, be it amid a resize or not. Keys need not be lawful
beyond what an evacuation needs: those that are the same as themselves hash as they did before.
-/

namespace GradualMap

open GradualMap.Action

variable {K V δ : Type} {reading : Reading K} {exact : Prop} {scheme : KeyScheme K δ}
  {map : Map K V}

/-- Some calls of a walk: what each answers, and how many entries the walk says are left then. -/
def Walk.follow (scheme : KeyScheme K δ) (map : Map K V) :
    (calls : Nat) → Walk K V → Action (KeyEnv δ) (List (Option (K × V) × Nat))
  | 0, _ => return []
  | calls + 1, walk => do
    let (answer, walk) ← walk.next scheme map
    return (answer, walk.len) :: (← follow scheme map calls walk)

theorem Walk.follow_yields (follows : scheme.Follows reading)
    (sound : map.Sound (reading.rules exact)) (calls : Nat) :
    ∀ {walk : Walk K V} {items : List (Entry K V)} {env : KeyEnv δ},
      (∀ entry ∈ items, entry ∈ map.table.entries) → Ahead reading map.table walk items →
      Yields (follow scheme map calls walk) env fun answers _ =>
        answers = (List.range calls).map fun i =>
          (items[i]?.map Entry.pair, items.length - (i + 1)) := by
  induction calls with
  | zero =>
    intro walk items env _ _
    exact rfl
  | succ calls ih =>
    intro walk items env known ahead
    unfold follow Yields
    rw [ends_bind]
    apply (next_yields follows sound.table sound.free known ahead env).ends
    rintro ⟨answer, walk'⟩ env ⟨shown, ahead'⟩
    simp only at shown ahead' ⊢
    rw [ends_bind]
    refine (ih (fun entry mem => known entry (List.mem_of_mem_tail mem)) ahead').ends ?_
    rintro answers env rfl
    have first : answer = items[0]?.map Entry.pair := by
      rw [shown, List.head?_eq_getElem?]
      rfl
    rw [ends_pure, List.range_succ_eq_map, List.map_cons, List.map_map, first, ahead'.len,
      List.length_tail]
    refine congrArg _ (List.map_congr_left fun i _ => ?_)
    rw [Function.comp_apply, List.getElem?_tail, Nat.sub_sub, Nat.add_comm 1]

/-- However long a walk is followed, it shows every live entry once, whatever chain that is in, and
then nothing more, and it always says how many are to come. -/
theorem walk_shows_all (follows : scheme.Follows reading) (reachable : Reachable scheme map)
    (calls : Nat) (env : KeyEnv δ) :
    Yields (do
        let walk ← Walk.ofMap map
        return (walk.len, ← walk.follow scheme map calls)) env
      fun (left, answers) _ => ∃ order : List (Entry K V), order.Perm map.table.entries ∧
        left = order.length ∧ answers = (List.range calls).map fun i =>
          (order[i]?.map Entry.pair, order.length - (i + 1)) := by
  have sound : map.Sound (reading.rules True) := reachable.sound follows
  unfold Yields
  rw [ends_bind]
  apply (Walk.ofMap_yields sound.table env).ends
  rintro walk env ⟨order, all, ahead⟩
  rw [ends_bind]
  apply (Walk.follow_yields follows sound calls (fun entry => all.mem_iff.mp) ahead).ends
  rintro answers env rfl
  exact ⟨order, all, ahead.len, rfl⟩

/-- The twenty-seventh entry doubles a table of four chains. -/
theorem walk_shows_all_amid_doubling : ∃ map : Map UInt64 Nat,
    map.table.exponent = 3 ∧ map.table.resize.isSome = true ∧ map.table.count = 27 ∧
    Yields (do
        let walk ← Walk.ofMap map
        return (walk.len, ← walk.follow (Key.word {}) map 28)) ⟨{}, ()⟩
      fun (left, answers) _ => ∃ order : List (Entry UInt64 Nat), order.Perm map.table.entries ∧
        left = order.length ∧ answers = (List.range 28).map fun i =>
          (order[i]?.map Entry.pair, order.length - (i + 1)) := by
  have made : Reachable (V := Nat) (Key.word {}) _ := .made .empty (.ample {}) rfl
  obtain ⟨map, grown, exponent, growing, count⟩ : ∃ map : Map UInt64 Nat,
      Reachable (Key.word {}) map ∧ map.table.exponent = 3 ∧ map.table.resize.isSome = true ∧
        map.table.count = 27 :=
    ⟨_, made.after (.extend ((List.range 27).map fun n => (n.toUInt64, n))) (.ample {}) ()
      (by decide +kernel), by decide +kernel⟩
  exact ⟨map, exponent, growing, count, walk_shows_all (Key.word_follows {}) grown 28 _⟩

end GradualMap
