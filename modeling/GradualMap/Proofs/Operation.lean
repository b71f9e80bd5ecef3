import GradualMap.Map.Update
import GradualMap.Proofs.Retention

/-!
What each operation of a map comes to. An answer says what was found under the key and what became
of the entries; a failed operation has left every entry as it was.
-/

namespace GradualMap

open GradualMap.Action

variable {K V δ ρ : Type}

/-- The failures of an operation on one key. One that asks for no memory fails alike whatever
memory there is. -/
def KeyScheme.Fails (scheme : KeyScheme K δ) (grants : Nat → Bool) (key : K) (failure : Failure) :
    Prop :=
  (∃ seed, scheme.Declines key seed failure) ∨ scheme.Breaks grants failure

namespace Table

variable {rules : Rules K} {scheme : KeyScheme K δ} {key : K} {hash : UInt64}
  {before after table : Table K V}

/-- What a write of a value under `key` does to the entries, by the value it found there. A present
value comes to `f` of it, an absent one to `fresh`. -/
def Stored (rules : Rules K) (scheme : KeyScheme K δ) (key : K) (f : V → V) (fresh : V)
    (before : Table K V) (prior : Option V) (after : Table K V) : Prop :=
  match prior with
  | some old => ∃ entry rest, entry.value = old ∧ scheme.Judges key entry.key true ∧
      before.entries.Perm (entry :: rest) ∧
      after.entries.Perm (Map.overwrite scheme key f entry :: rest)
  | none => Absent rules scheme key before ∧
      after.entries.Perm ({ key, value := fresh } :: before.entries)

structure Written (rules : Rules K) (scheme : KeyScheme K δ) (key : K) (f : V → V) (fresh : V)
    (before : Table K V) (prior : Option V) (after : Table K V) : Prop where
  sound : after.Sound rules
  snug : after.Snug
  seed : after.seed = before.seed
  exponent_le : before.exponent ≤ after.exponent
  stored : Stored rules scheme key f fresh before prior after

theorem Sound.mem_of_holds (sound : table.Sound rules) {pos : Position} {top : UInt8}
    {entry : Entry K V} (holds : table.Holds pos top entry) : entry ∈ table.entries := by
  obtain ⟨_, rest, all, _⟩ := sound.put holds entry fun _ _ _ => id
  exact all.mem_iff.mpr (.head _)

/-- The key a claim was made for may take the place of the one it found. -/
theorem Claimed.overwrite_yields {stalls : Failure → Prop} (held : rules.HeldBy scheme stalls)
    {pos : Position} (f : V → V) (hashes : scheme.Hashes key before.seed hash)
    (claimed : Claimed rules scheme key hash before (.occupied pos) after) (env : Env δ) :
    Yields (updateEntry pos (Map.overwrite scheme key f)) (after, env) fun entry s =>
      ∀ fresh, Written rules scheme key f fresh before (some entry.value) s.1 := by
  obtain ⟨sound, regrown, snug, here, index, entry, holds, judges⟩ := claimed
  apply (updateEntry_yields holds _ env).ends
  rintro entry ⟨written, env⟩ ⟨rfl, rfl⟩ fresh
  have bound : pos.index < after.current.size := by
    obtain ⟨_, _, offset⟩ := pos
    obtain rfl : _ = Era.current := here
    exact (holds_current.mp holds).1
  have size := sound.size_eq_of_lt bound
  obtain ⟨sound', rest, all, all'⟩ := sound.put holds (Map.overwrite scheme key f entry) <| by
    intro size' index' same admits
    unfold Map.overwrite
    simp only
    split
    · obtain ⟨rfl, rfl⟩ := same here
      rw [size, index]
      exact held.enters (regrown.seed ▸ hashes) _
    · exact admits
  refine ⟨sound', ?_, ?_, ?_, entry, rest, rfl, judges, regrown.entries.symm.trans all, all'⟩
  · intro small
    simpa using snug (by simpa using small)
  · simpa using regrown.seed
  · simpa using regrown.exponent_le

theorem Claimed.fill_yields {stalls : Failure → Prop} (held : rules.HeldBy scheme stalls)
    {index offset : Nat} (f : V → V) (fresh : V) (hashes : scheme.Hashes key before.seed hash)
    (claimed : Claimed rules scheme key hash before (.vacant index offset) after) (env : Env δ) :
    Yields (fill index offset hash { key, value := fresh }) (after, env) fun _ s =>
      Written rules scheme key f fresh before none s.1 := by
  obtain ⟨sound, regrown, snug, granted⟩ := claimed
  obtain ⟨index_eq, bound, _, _, located, _⟩ := id granted
  have size := sound.size_eq_of_lt bound
  refine (Table.fill_yields sound snug granted ?_ env).ends ?_
  · rw [size, index_eq]
    exact held.enters (regrown.seed ▸ hashes) _
  · rintro _ ⟨filled, env⟩ ⟨sound', snug', entries, seed, exponent⟩
    refine ⟨sound', snug', seed.trans regrown.seed, exponent ▸ regrown.exponent_le, ?_,
      entries.trans (regrown.entries.cons _)⟩
    exact .inr ⟨hash, after, hashes, sound, regrown, located⟩

end Table

namespace Map

variable {rules : Rules K} {scheme : KeyScheme K δ} {key : K} {map : Map K V} {env : Env δ}
  {own : ρ} {stalls : Failure → Prop}

/-- A map between two operations. -/
structure Sound (rules : Rules K) (map : Map K V) : Prop where
  table : map.table.Sound rules
  snug : map.table.Snug
  free : map.latch.held = false

/-- A map that an operation has left as it was, but for the work of a resize. -/
structure Spared (rules : Rules K) (before after : Map K V) : Prop where
  sound : after.Sound rules
  regrown : Table.Regrown before.table after.table
  id : after.id = before.id

/-- A map that a value was written to. -/
structure Written (rules : Rules K) (scheme : KeyScheme K δ) (key : K) (f : V → V) (fresh : V)
    (before : Map K V) (prior : Option V) (after : Map K V) : Prop where
  table : Table.Written rules scheme key f fresh before.table prior after.table
  free : after.latch.held = false
  id : after.id = before.id

/-- What no operation undoes. The seed stands unless the last entry goes. -/
structure Onward (before after : Map K V) : Prop where
  id : after.id = before.id
  exponent_le : before.table.exponent ≤ after.table.exponent
  seed : after.table.seed = before.table.seed ∨
    before.table.entries ≠ [] ∧ after.table.entries = []

theorem Onward.refl (map : Map K V) : Onward map map :=
  ⟨rfl, Nat.le_refl _, .inl rfl⟩

theorem Spared.onward {after : Map K V} (spared : Spared rules map after) : Onward map after :=
  ⟨spared.id, spared.regrown.exponent_le, .inl spared.regrown.seed⟩

theorem Spared.refl (sound : map.Sound rules) : Spared rules map map :=
  ⟨sound, .refl _, rfl⟩

theorem Written.sound {f : V → V} {fresh : V} {prior : Option V} {after : Map K V}
    (written : Written rules scheme key f fresh map prior after) : after.Sound rules :=
  ⟨written.table.sound, written.table.snug, written.free⟩

theorem Written.onward {f : V → V} {fresh : V} {prior : Option V} {after : Map K V}
    (written : Written rules scheme key f fresh map prior after) : Onward map after :=
  ⟨written.id, written.table.exponent_le, .inl written.table.seed⟩

theorem insert?_ends_of_held (held : rules.HeldBy scheme stalls) (sound : map.Sound rules)
    (value : V) (env : Env δ) :
    Ends (insert? scheme key value) (map, env)
      (fun prior s => Written rules scheme key (fun _ => value) value map prior s.1)
      (fun failure s => ¬ stalls failure →
        Spared rules map s.1 ∧ scheme.Fails env.grants key failure) := by
  unfold insert?
  rw [ends_bind, ends_read, ends_bind, ends_onKeys]
  apply KeyScheme.hashKey_ends.mono
  · intro hash keys hashes
    rw [ends_writing sound.free, ends_onTable, ends_bind]
    apply (Table.claim_ends_of_held held sound.table sound.snug _).mono
    · rintro (pos | ⟨index, offset⟩) ⟨after, env⟩ claimed
      · simp only
        rw [ends_bind]
        exact (claimed.overwrite_yields held _ hashes env).ends
          fun entry s written => ⟨written value, rfl, rfl⟩
      · simp only
        rw [ends_bind]
        exact (claimed.fill_yields held _ value hashes env).ends
          fun _ s written => ⟨written, rfl, rfl⟩
    · intro failure s broken calm
      have broken := broken calm
      exact ⟨⟨⟨broken.sound, broken.snug, rfl⟩, broken.regrown, rfl⟩, .inr broken.breaks⟩
  · exact fun failure keys declines _ => ⟨.refl sound, .inl ⟨_, declines⟩⟩

theorem insert?_ends (kept : rules.KeptBy scheme) (sound : map.Sound rules) (value : V)
    (env : Env δ) :
    Ends (insert? scheme key value) (map, env)
      (fun prior s => Written rules scheme key (fun _ => value) value map prior s.1)
      (fun failure s => Spared rules map s.1 ∧ scheme.Fails env.grants key failure) :=
  (insert?_ends_of_held kept sound value env).mono (fun _ _ h => h)
    fun _ _ spared => spared not_false

/-- The default is computed for an absent key only, and if it raises, no entry was touched. -/
theorem getOrInsert?_ends_of_held (held : rules.HeldBy scheme stalls) (sound : map.Sound rules)
    (default : StateM ρ (Except String V)) (f : V → V) (env : Env δ) :
    Ends (getOrInsert? scheme key default f) ((map, env), own)
      (fun answer s =>
        (∃ old, answer = f old ∧ s.2 = own ∧
          Written rules scheme key f answer map (some old) s.1.1) ∨
        ∃ value, (default own).1 = .ok value ∧ s.2 = (default own).2 ∧ answer = f value ∧
          Written rules scheme key f answer map none s.1.1)
      (fun failure s => ¬ stalls failure → Spared rules map s.1.1 ∧
        (s.2 = own ∧ scheme.Fails env.grants key failure ∨
          ∃ text, (default own).1 = .error text ∧ s.2 = (default own).2 ∧
            failure = .abort (.raised text))) := by
  unfold getOrInsert?
  rw [ends_bind, ends_first, ends_read, ends_bind, ends_first, ends_onKeys]
  apply KeyScheme.hashKey_ends.mono
  · intro hash keys hashes
    rw [ends_writingWith sound.free, ends_bind, ends_first, ends_onTable]
    apply (Table.claim_ends_of_held held sound.table sound.snug _).mono
    · rintro (pos | ⟨index, offset⟩) ⟨after, env⟩ claimed
      · simp only
        rw [ends_bind, ends_first, ends_onTable]
        exact (claimed.overwrite_yields held f hashes env).ends
          fun entry s written => .inl ⟨_, rfl, rfl, written _, rfl, rfl⟩
      · simp only
        rw [ends_bind, ends_second, ends_lift]
        cases answered : (default own).1 with
        | error text =>
          intro _
          exact ⟨⟨⟨claimed.sound, claimed.snug, rfl⟩, claimed.regrown, rfl⟩,
            .inr ⟨text, rfl, rfl, rfl⟩⟩
        | ok value =>
          simp only
          rw [ends_bind, ends_first, ends_onTable]
          exact (claimed.fill_yields held f (f value) hashes env).ends
            fun _ s written => .inr ⟨value, rfl, rfl, rfl, written, rfl, rfl⟩
    · intro failure s broken calm
      have broken := broken calm
      exact ⟨⟨⟨broken.sound, broken.snug, rfl⟩, broken.regrown, rfl⟩,
        .inl ⟨rfl, .inr broken.breaks⟩⟩
  · exact fun failure keys declines _ => ⟨.refl sound, .inl ⟨rfl, .inl ⟨_, declines⟩⟩⟩

theorem getOrInsert?_ends (kept : rules.KeptBy scheme) (sound : map.Sound rules)
    (default : StateM ρ (Except String V)) (f : V → V) (env : Env δ) :
    Ends (getOrInsert? scheme key default f) ((map, env), own)
      (fun answer s =>
        (∃ old, answer = f old ∧ s.2 = own ∧
          Written rules scheme key f answer map (some old) s.1.1) ∨
        ∃ value, (default own).1 = .ok value ∧ s.2 = (default own).2 ∧ answer = f value ∧
          Written rules scheme key f answer map none s.1.1)
      (fun failure s => Spared rules map s.1.1 ∧ (s.2 = own ∧ scheme.Fails env.grants key failure ∨
        ∃ text, (default own).1 = .error text ∧ s.2 = (default own).2 ∧
          failure = .abort (.raised text))) :=
  (getOrInsert?_ends_of_held kept sound default f env).mono (fun _ _ h => h)
    fun _ _ spared => spared not_false

/-- Where a look-up leads. -/
def Sought (rules : Rules K) (scheme : KeyScheme K δ) (key : K) (map : Map K V) :
    Option Position → Prop
  | none => Table.Absent rules scheme key map.table
  | some pos => ∃ top entry, map.table.Holds pos top entry ∧ scheme.Judges key entry.key true

theorem position?_ends {grants : Nat → Bool} (sound : map.Sound rules) (keys : KeyEnv δ) :
    Ends (map.position? scheme key) keys (fun found _ => Sought rules scheme key map found)
      (fun failure _ => scheme.Fails grants key failure) := by
  have standing : map.latch.check .readDuringWrite = .ok () := by
    simp [Latch.check, sound.free]
  unfold position?
  split
  · rename_i empty
    have none := sound.table.entries_eq_nil.mp (by simpa [isEmpty] using empty)
    rw [ends_bind]
    unfold Table.probeEmpty
    split
    · rw [ends_discard]
      exact KeyScheme.hashKey_ends.mono (fun _ _ _ => .inl none)
        fun failure _ declines => .inl ⟨0, declines⟩
    · exact .inl none
  · rw [ends_bind, ends_check_ok standing, ends_bind]
    refine KeyScheme.hashKey_ends.mono (fun hash keys hashes => ?_)
      fun failure _ declines => .inl ⟨_, declines⟩
    refine (Table.find_ends sound.table keys).mono ?_ fun failure _ balks => .inr (.inl balks)
    rintro (_ | pos) keys located
    · exact .inr ⟨hash, map.table, hashes, sound.table, .refl _, located⟩
    · exact ⟨_, located⟩

/-- What a look-up shows. -/
def Looked (rules : Rules K) (scheme : KeyScheme K δ) (key : K) (map : Map K V) :
    Option (K × V) → Prop
  | none => Table.Absent rules scheme key map.table
  | some pair => ∃ entry ∈ map.table.entries, pair = (entry.key, entry.value) ∧
      scheme.Judges key entry.key true

theorem getPair?_ends {grants : Nat → Bool} (sound : map.Sound rules) (keys : KeyEnv δ) :
    Ends (map.getPair? scheme key) keys (fun answer _ => Looked rules scheme key map answer)
      (fun failure _ => scheme.Fails grants key failure) := by
  unfold getPair?
  rw [ends_bind]
  refine (position?_ends sound keys).mono ?_ fun _ _ fails => fails
  rintro (_ | pos) keys sought
  · exact sought
  · obtain ⟨top, entry, holds, judges⟩ := sought
    simp only
    rw [ends_bind, ends_check_ok holds.entryAt]
    exact ⟨entry, sound.table.mem_of_holds holds, rfl, judges⟩

/-- What becomes of a map whose value under a key is changed in place. -/
def Adjusted (rules : Rules K) (scheme : KeyScheme K δ) (key : K) (f : V → V)
    (before : Map K V) (answer : Option V) (after : Map K V) : Prop :=
  match answer with
  | none => Table.Absent rules scheme key before.table ∧ after = before
  | some value => ∃ entry rest, scheme.Judges key entry.key true ∧ value = f entry.value ∧
      before.table.entries.Perm (entry :: rest) ∧
      after.table.entries.Perm ({ entry with value := f entry.value } :: rest)

theorem adjust_ends (sound : map.Sound rules) (f : V → V) (grants : Nat → Bool) (env : Env δ) :
    Ends (adjust scheme key f) (map, env)
      (fun answer s => s.1.Sound rules ∧ Onward map s.1 ∧
        Adjusted rules scheme key f map answer s.1)
      (fun failure s => s.1 = map ∧
        ∃ met, scheme.Fails grants key met ∧ failure = met.unhandled) := by
  unfold adjust
  rw [ends_bind, ends_read, ends_bind, ends_onKeys, ends_orAbort]
  refine (position?_ends sound env.keys).mono ?_ fun failure keys fails => ⟨rfl, _, fails, rfl⟩
  rintro (_ | pos) keys sought
  · exact ⟨sound, .refl map, sought, rfl⟩
  · obtain ⟨top, entry, holds, judges⟩ := sought
    simp only
    rw [ends_bind, ends_onTable]
    apply (Table.updateEntry_yields holds _ _).ends
    rintro entry ⟨after, env⟩ ⟨rfl, rfl⟩
    obtain ⟨sound', rest, all, all'⟩ := sound.table.put holds
      { entry with value := f entry.value } fun _ _ _ admits => admits
    refine ⟨⟨sound', ?_, sound.free⟩, ⟨rfl, by simp, by simp⟩, entry, rest, judges, rfl, all, all'⟩
    intro small
    simpa using sound.snug (by simpa using small)

/-- What becomes of a map that a key is removed from. -/
def Removed (rules : Rules K) (scheme : KeyScheme K δ) (key : K) (before : Map K V)
    (answer : Option (K × V)) (after : Map K V) : Prop :=
  match answer with
  | none => Table.Absent rules scheme key before.table ∧
      after.table.entries.Perm before.table.entries
  | some pair => ∃ entry, pair = (entry.key, entry.value) ∧ scheme.Judges key entry.key true ∧
      before.table.entries.Perm (entry :: after.table.entries)

theorem removePair?_ends_of_held (held : rules.HeldBy scheme stalls) (sound : map.Sound rules)
    (grants : Nat → Bool) (env : Env δ) :
    Ends (removePair? scheme key) (map, env)
      (fun answer s => s.1.Sound rules ∧ Onward map s.1 ∧ Removed rules scheme key map answer s.1)
      (fun failure s => ¬ stalls failure →
        Spared rules map s.1 ∧ scheme.Fails grants key failure) := by
  unfold removePair?
  rw [ends_bind, ends_read]
  split
  · rename_i empty
    have none := sound.table.entries_eq_nil.mp (by simpa [isEmpty] using empty)
    rw [ends_bind, ends_onKeys]
    unfold Table.probeEmpty
    split
    · rw [ends_discard]
      exact KeyScheme.hashKey_ends.mono
        (fun _ _ _ => ⟨⟨sound.table, sound.snug, sound.free⟩, .refl map, .inl none, .refl _⟩)
        fun failure _ declines _ => ⟨.refl sound, .inl ⟨0, declines⟩⟩
    · exact ⟨⟨sound.table, sound.snug, sound.free⟩, .refl map, .inl none, .refl _⟩
  · rw [ends_bind, ends_read, ends_bind, ends_onKeys]
    refine KeyScheme.hashKey_ends.mono ?_
      fun failure keys declines _ => ⟨.refl sound, .inl ⟨_, declines⟩⟩
    intro hash keys hashes
    rw [ends_writing sound.free, ends_onTable]
    apply (Table.delete_ends_of_held held sound.table sound.snug grants _).mono
    · rintro (_ | pair) ⟨after, env⟩ ⟨sound', snug, deleted⟩
      · obtain ⟨regrown, absent⟩ := deleted
        refine ⟨⟨sound', snug, rfl⟩, ⟨rfl, regrown.exponent_le, .inl regrown.seed⟩, ?_,
          regrown.entries⟩
        rcases absent with none | ⟨between, sound'', regrown', located⟩
        · exact .inl none
        · exact .inr ⟨hash, between, hashes, sound'', regrown', located⟩
      · obtain ⟨exponent, seed, entry, rfl, judges, entries⟩ := deleted
        have stored : map.table.entries ≠ [] := fun none => by simp [none] at entries
        exact ⟨⟨sound', snug, rfl⟩, ⟨rfl, Nat.le_of_eq exponent.symm, seed.imp_right (⟨stored, ·⟩)⟩,
          entry, rfl, judges, entries⟩
    · intro failure s broken calm
      have broken := broken calm
      exact ⟨⟨⟨broken.sound, broken.snug, rfl⟩, broken.regrown, rfl⟩, .inr broken.breaks⟩

theorem removePair?_ends (kept : rules.KeptBy scheme) (sound : map.Sound rules)
    (grants : Nat → Bool) (env : Env δ) :
    Ends (removePair? scheme key) (map, env)
      (fun answer s => s.1.Sound rules ∧ Onward map s.1 ∧ Removed rules scheme key map answer s.1)
      (fun failure s => Spared rules map s.1 ∧ scheme.Fails grants key failure) :=
  (removePair?_ends_of_held kept sound grants env).mono (fun _ _ h => h)
    fun _ _ spared => spared not_false

theorem clear_yields (sound : map.Sound rules) (env : Env δ) :
    Yields (clear : MapAction K V δ Unit) (map, env) fun _ s => s.1.Sound rules ∧
      Onward map s.1 ∧ s.1.table.entries = [] := by
  unfold clear Yields
  rw [ends_writing sound.free, ends_onTable]
  apply (Table.clear_yields sound.table sound.snug env).ends
  rintro _ ⟨after, env⟩ ⟨sound', snug, none, exponent, seed⟩
  exact ⟨⟨sound', snug, rfl⟩, ⟨rfl, Nat.le_of_eq exponent.symm, seed.imp_right (⟨·, none⟩)⟩, none⟩

theorem retain_ends_of_held (held : rules.HeldBy scheme stalls) (sound : map.Sound rules)
    (f : K → V → StateM ρ (V × Except String Bool)) (env : Env δ) :
    Ends (retain scheme f) ((map, env), own)
      (fun _ s => s.1.1.Sound rules ∧ Onward map s.1.1 ∧ ∃ order left,
        order.Perm map.table.entries ∧ Keeps f order own (.ok ()) left s.2 ∧
        s.1.1.table.entries.Perm left)
      (fun failure s => ¬ stalls failure → s.1.1.Sound rules.loose ∧ Onward map s.1.1 ∧
        ∃ order left text, order.Perm map.table.entries ∧ Keeps f order own (.error text) left s.2 ∧
          failure = .abort (.raised text) ∧ s.1.1.table.entries.Perm left) := by
  rw [ends_retain sound.free]
  refine (Table.retain_ends_of_held held f sound.table sound.snug env own).mono ?_ ?_
  · rintro _ ⟨⟨after, env⟩, own'⟩ ⟨sound', snug, exponent, seed, shown⟩
    exact ⟨⟨sound', snug, rfl⟩, ⟨rfl, Nat.le_of_eq exponent.symm, seed⟩, shown⟩
  · intro failure s ended calm
    obtain ⟨sound', snug, exponent, seed, order, left, text, shown⟩ := ended calm
    exact ⟨⟨sound', snug, rfl⟩, ⟨rfl, Nat.le_of_eq exponent.symm, .inl seed⟩, order, left, text,
      shown⟩

theorem retain_ends (kept : rules.KeptBy scheme) (sound : map.Sound rules)
    (f : K → V → StateM ρ (V × Except String Bool)) (env : Env δ) :
    Ends (retain scheme f) ((map, env), own)
      (fun _ s => s.1.1.Sound rules ∧ Onward map s.1.1 ∧ ∃ order left,
        order.Perm map.table.entries ∧ Keeps f order own (.ok ()) left s.2 ∧
        s.1.1.table.entries.Perm left)
      (fun failure s => s.1.1.Sound rules.loose ∧ Onward map s.1.1 ∧ ∃ order left text,
        order.Perm map.table.entries ∧ Keeps f order own (.error text) left s.2 ∧
        failure = .abort (.raised text) ∧ s.1.1.table.entries.Perm left) :=
  (retain_ends_of_held kept sound f env).mono (fun _ _ h => h) fun _ _ stopped => stopped not_false

end Map

end GradualMap
