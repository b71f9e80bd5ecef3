import GradualMap.Proofs.Retention
import Mathlib.Data.List.Perm.Subperm

/-!
What a table does, one step at a time, with the events it reports. The steps are those of every key
scheme, lawful or not: what the scheme answers only decides which of them are taken. Whatever each
step keeps therefore holds of all that operations lead to.
-/

namespace GradualMap

variable {K V δ : Type}

namespace Table

/-- Each chain has keys that it has in this table, under the hash bytes they have there. -/
def standing (table : Table K V) : Rules K where
  admits _ _ index top key :=
    ∃ item ∈ (table.current.chainAt index).live, item.1 = top ∧ item.2.key = key
  exact := True

/-- What is left of a table without a resize when some of its entries were dropped and others were
given new values. -/
structure Thinned (before after : Table K V) : Prop where
  idle : after.resize = none
  exponent : after.exponent = before.exponent
  seed : after.seed = before.seed
  size : after.current.size = before.current.size
  linked : after.current.linked = before.current.linked
  overflow : after.overflowCount = before.overflowCount
  sound : after.Sound before.standing
  keys : (after.entries.map (·.key)).Subperm (before.entries.map (·.key))

/-- One step of a table, next to the events so far. -/
inductive Step (scheme : KeyScheme K δ) : Table K V × List Event → Table K V × List Event → Prop
  | shift {before after : Table K V × List Event} (shift : Shift scheme before after) :
      Step scheme before after
  | reserve {table : Table K V} {log : List Event} (bare : table.current.size = 0) :
      Step scheme (table, log) (table.reserved, log)
  /-- A resize starts when none is in flight. -/
  | start {table : Table K V} {log : List Event} (idle : table.resize = none)
      (allocated : table.current.size ≠ 0) (small : table.started.exponent < exponentLimit) :
      Step scheme (table, log) (table.started, table.startEvent :: log)
  /-- An entry is only ever added right after a resize in flight was taken forward. -/
  | fill {before between after : Table K V × List Event} {key : K} {value : V} {hash : UInt64}
      {offset : Nat} (allocated : between.1.current.size ≠ 0)
      (worked : Worked scheme (bucketIndex hash between.1.exponent) before between)
      (calm : between.1.mustGrow = false) (absent : between.1.Located scheme key hash none)
      (room : Room (bucketIndex hash between.1.exponent) between offset after)
      (hashes : scheme.Hashes key between.1.seed hash) :
      Step scheme before
        (after.1.filled (bucketIndex hash between.1.exponent) offset hash ⟨key, value⟩, after.2)
  | write {table : Table K V} {log : List Event} {pos : Position} {top : UInt8}
      {entry : Entry K V} (holds : table.Holds pos top entry) (value : V) :
      Step scheme (table, log) (table.put pos (.full top { entry with value }), log)
  /-- A key takes the place of one that it was judged the same as. -/
  | rekey {table : Table K V} {log : List Event} {key : K} {hash : UInt64} {offset : Nat}
      {entry : Entry K V}
      (holds : table.Holds ⟨.current, bucketIndex hash table.exponent, offset⟩ (topHash hash) entry)
      (judges : scheme.Judges key entry.key true) (hashes : scheme.Hashes key table.seed hash)
      (value : V) :
      Step scheme (table, log)
        (table.put ⟨.current, bucketIndex hash table.exponent, offset⟩
          (.full (topHash hash) ⟨key, value⟩), log)
  | remove {table : Table K V} {log : List Event} {index offset : Nat} {top : UInt8}
      {entry : Entry K V} (holds : table.Holds ⟨.current, index, offset⟩ top entry) :
      Step scheme (table, log) (table.without index offset, log)
  | thin {table after : Table K V} {log : List Event} (idle : table.resize = none)
      (thinned : Thinned table after) : Step scheme (table, log) (after, log)
  | reseed {table : Table K V} {log log' : List Event} (empty : table.count = 0) (seed : UInt64)
      (told : log' = log ∨ log' = .emptied :: log) :
      Step scheme (table, log) ({ table with seed }, log')
  | clear {table : Table K V} {log : List Event} (seed : UInt64) :
      Step scheme (table, log) (table.cleared seed, .cleared table.exponent :: log)

variable {rules : Rules K} {scheme : KeyScheme K δ} {stalls : Failure → Prop} {table : Table K V}
  {before after : Table K V × List Event}

/-- A table is sound by its own account. -/
theorem Sound.stands (sound : table.Sound rules) (exact : rules.exact)
    (idle : table.resize = none) : table.Sound table.standing where
  count := sound.count
  allocated := sound.allocated
  chains i bound := by
    refine ⟨(sound.chains i bound).tidy.mono fun _ => exact, fun item mem => ?_⟩
    exact ⟨item, mem, rfl, rfl⟩
  resizing resize growing := by
    rw [idle] at growing
    cases growing

theorem Thinned.sound_of {after : Table K V} (thinned : Thinned table after)
    (sound : table.Sound rules) : after.Sound rules where
  count := thinned.sound.count
  allocated := thinned.sound.allocated
  chains i bound := by
    refine ⟨(thinned.sound.chains i bound).tidy.mono fun _ => trivial, fun item mem => ?_⟩
    obtain ⟨item', known, top, key⟩ := (thinned.sound.chains i bound).placed item mem
    have admits := (sound.chains i (thinned.size ▸ bound)).placed item' known
    rwa [top, key, ← thinned.size, ← thinned.seed] at admits
  resizing resize growing := by
    rw [thinned.idle] at growing
    cases growing

/-- What the insertion of a new key starts from, once there is room for it. -/
theorem roomed_of_worked (held : rules.HeldBy scheme stalls) {between : Table K V × List Event}
    {key : K} {hash : UInt64} {offset : Nat} (sound : before.1.Sound rules)
    (allocated : between.1.current.size ≠ 0)
    (worked : Worked scheme (bucketIndex hash between.1.exponent) before between)
    (room : Room (bucketIndex hash between.1.exponent) between offset after)
    (hashes : scheme.Hashes key between.1.seed hash) :
    between.1.Sound rules ∧ Steady before.1 between.1 ∧
      Roomed rules (bucketIndex hash between.1.exponent) offset between.1 after.1 ∧
      rules.admits after.1.seed after.1.current.size (bucketIndex hash between.1.exponent)
        (topHash hash) key := by
  obtain ⟨sound', steady⟩ := worked.shifts.sound held sound
  have bound := sound'.bucketIndex_lt allocated hash
  have roomed := room.roomed sound' bound worked.settled
  refine ⟨sound', steady, roomed, ?_⟩
  have size' : after.1.current.size = bucketCount between.1.exponent := by
    rw [roomed.sound.size_eq_of_lt roomed.bound, roomed.exponent]
  rw [roomed.seed, size']
  exact held.enters hashes _

/-- A key may take the place of another one in the chain of its own hash. -/
theorem Sound.rekeyed (held : rules.HeldBy scheme stalls) (sound : table.Sound rules) {key : K}
    {hash : UInt64} {offset : Nat} {entry : Entry K V}
    (holds : table.Holds ⟨.current, bucketIndex hash table.exponent, offset⟩ (topHash hash) entry)
    (hashes : scheme.Hashes key table.seed hash) (value : V) :
    Sound rules (table.put ⟨.current, bucketIndex hash table.exponent, offset⟩
        (.full (topHash hash) ⟨key, value⟩)) ∧
      ∃ rest, table.entries.Perm (entry :: rest) ∧
        (table.put ⟨.current, bucketIndex hash table.exponent, offset⟩
          (.full (topHash hash) ⟨key, value⟩)).entries.Perm (⟨key, value⟩ :: rest) := by
  refine sound.put holds ⟨key, value⟩ fun size index same _ => ?_
  obtain ⟨rfl, rfl⟩ := same rfl
  have bound : _ < table.current.size := (holds_current.mp holds).1
  rw [sound.size_eq_of_lt bound]
  exact held.enters hashes _

theorem Step.sound (step : Step scheme before after) (held : rules.HeldBy scheme stalls)
    (sound : before.1.Sound rules) : after.1.Sound rules := by
  cases step with
  | shift shift => exact (shift.sound held sound).1
  | reserve bare => exact (sound.reserved bare).1
  | start idle allocated small =>
    exact sound.started idle (sound.size_eq allocated) small
  | fill allocated worked calm absent room hashes =>
    obtain ⟨_, _, roomed, admits⟩ := roomed_of_worked held sound allocated worked room hashes
    exact (roomed.sound.filled roomed.bound roomed.settled roomed.first admits).1
  | @write _ _ _ _ entry holds value =>
    exact (sound.put holds { entry with value } fun _ _ _ => id).1
  | rekey holds judges hashes value => exact (sound.rekeyed held holds hashes value).1
  | remove holds => exact (sound.without holds).1
  | thin idle thinned => exact thinned.sound_of sound
  | reseed empty seed told => exact sound.reseeded (sound.entries_eq_nil.mp empty) seed
  | clear seed => exact sound.cleared seed

/-- Any number of steps. -/
abbrev Path (scheme : KeyScheme K δ) : Table K V × List Event → Table K V × List Event → Prop :=
  Relation.ReflTransGen (Step scheme)

theorem Path.sound (path : Path scheme before after) (held : rules.HeldBy scheme stalls)
    (sound : before.1.Sound rules) : after.1.Sound rules := by
  induction path with
  | refl => exact sound
  | tail _ step ih => exact step.sound held ih

theorem Shifts.path (shifts : Shifts scheme before after) : Path scheme before after :=
  Relation.ReflTransGen.mono (fun _ _ => Step.shift) _ _ shifts

/-- What each step keeps of a table that is read as its chains tell, a path keeps. -/
theorem Path.keeps {keeps : Table K V → Prop}
    (step : ∀ {before after : Table K V × List Event}, before.1.Sound Rules.any →
      Step scheme before after → keeps before.1 → keeps after.1)
    (path : Path scheme before after) (sound : before.1.Sound Rules.any) (kept : keeps before.1) :
    keeps after.1 := by
  induction path with
  | refl => exact kept
  | tail path' step' ih => exact step (Path.sound path' (Rules.any_heldBy scheme) sound) step' ih

end Table

end GradualMap
