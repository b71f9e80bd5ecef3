import GradualMap.Proofs.Store

/-!
A call does to a map what it does to a store. A call that ends in a fault has left the entries as
they were, and so has every reading call.
-/

namespace GradualMap

open GradualMap.Action

variable {σ K V δ ρ : Type} {reading : Reading K} {exact : Prop} {scheme : KeyScheme K δ}
  {store : Store σ K V} {state : σ} {key : K} {map : Map K V} {env : Env δ} {own : ρ}
  {grants : Nat → Bool}

namespace Store.Lawful

variable {replaces : Bool} {entries rest : List (Entry K V)} {entry : Entry K V}

theorem found_perm (lawful : store.Lawful reading replaces) (has : store.Has state entries)
    (split : entries.Perm (entry :: rest)) (same : reading.same key entry.key = true) :
    store.find key state = some entry ∧
    (∀ value, store.Has (store.write key value state)
      ({ key := if replaces then key else entry.key, value } :: rest)) ∧
    (∀ f, store.Has (store.amend key f state) ({ entry with value := f entry.value } :: rest)) ∧
    store.Has (store.erase key state) rest :=
  lawful.found (lawful.perm has split) same

theorem find_of_mem (lawful : store.Lawful reading replaces) (has : store.Has state entries)
    (mem : entry ∈ entries) (same : reading.same key entry.key = true) :
    store.find key state = some entry := by
  obtain ⟨front, back, rfl⟩ := List.append_of_mem mem
  exact (lawful.found_perm has List.perm_middle same).1

end Store.Lawful

namespace Table

variable {table before after : Table K V}

/-- What is absent by the word of the scheme is absent. -/
theorem Absent.missing (follows : scheme.Follows reading) (coherent : reading.Coherent)
    (absent : Absent (reading.rules exact) scheme key table) :
    ∀ entry ∈ table.entries, reading.same key entry.key = false := by
  rcases absent with none | ⟨hash, between, hashes, sound, regrown, located⟩
  · rw [none]
    simp
  · intro entry mem
    refine sound.absent coherent follows.agrees (fun known => ?_) located entry
      (regrown.entries.mem_iff.mpr mem)
    exact follows.reproduces.places.hashes known (regrown.seed.symm ▸ hashes)

theorem Stored.has (follows : scheme.Follows reading) (coherent : reading.Coherent)
    (lawful : store.Lawful reading scheme.traits.replacesKey) {f : V → V} {fresh : V}
    {prior : Option V} (stored : Stored (reading.rules exact) scheme key f fresh before prior after)
    (has : store.Has state before.entries) :
    (store.find key state).map (·.value) = prior ∧
      store.Has (store.write key (prior.elim fresh f) state) after.entries := by
  cases prior with
  | none =>
    obtain ⟨absent, entries⟩ := stored
    obtain ⟨none, write, _⟩ := lawful.missing has (absent.missing follows coherent)
    exact ⟨by rw [none]; rfl, lawful.perm (write _) entries.symm⟩
  | some old =>
    obtain ⟨entry, rest, rfl, judges, all, all'⟩ := stored
    obtain ⟨found, write, _⟩ :=
      lawful.found_perm has all (follows.judges_iff judges).symm
    exact ⟨by rw [found]; rfl, lawful.perm (write _) all'.symm⟩

end Table

namespace Map

theorem Looked.find (follows : scheme.Follows reading) (coherent : reading.Coherent)
    (lawful : store.Lawful reading scheme.traits.replacesKey) {answer : Option (K × V)}
    (looked : Looked (reading.rules exact) scheme key map answer)
    (has : store.Has state map.table.entries) :
    (store.find key state).map Entry.pair = answer := by
  cases answer with
  | none =>
    rw [(lawful.missing has (looked.missing follows coherent)).1]
    rfl
  | some pair =>
    obtain ⟨entry, mem, rfl, judges⟩ := looked
    rw [lawful.find_of_mem has mem (follows.judges_iff judges).symm]
    rfl

theorem Sought.find (follows : scheme.Follows reading) (coherent : reading.Coherent)
    (lawful : store.Lawful reading scheme.traits.replacesKey)
    (sound : map.Sound (reading.rules exact)) {found : Option Position}
    (sought : Sought (reading.rules exact) scheme key map found)
    (has : store.Has state map.table.entries) :
    (store.find key state).isSome = found.isSome := by
  cases found with
  | none =>
    rw [(lawful.missing has (sought.missing follows coherent)).1]
    rfl
  | some pos =>
    obtain ⟨top, entry, holds, judges⟩ := sought
    rw [lawful.find_of_mem has (sound.table.mem_of_holds holds) (follows.judges_iff judges).symm]
    rfl

theorem Adjusted.has (follows : scheme.Follows reading) (coherent : reading.Coherent)
    (lawful : store.Lawful reading scheme.traits.replacesKey) {f : V → V} {answer : Option V}
    {after : Map K V} (adjusted : Adjusted (reading.rules exact) scheme key f map answer after)
    (has : store.Has state map.table.entries) :
    (store.find key state).map (fun entry => f entry.value) = answer ∧
      store.Has (store.amend key f state) after.table.entries := by
  cases answer with
  | none =>
    obtain ⟨absent, rfl⟩ := adjusted
    obtain ⟨none, _, amend, _⟩ := lawful.missing has (absent.missing follows coherent)
    exact ⟨by rw [none]; rfl, amend f⟩
  | some value =>
    obtain ⟨entry, rest, judges, rfl, all, all'⟩ := adjusted
    obtain ⟨found, _, amend, _⟩ :=
      lawful.found_perm has all (follows.judges_iff judges).symm
    exact ⟨by rw [found]; rfl, lawful.perm (amend f) all'.symm⟩

theorem Removed.has (follows : scheme.Follows reading) (coherent : reading.Coherent)
    (lawful : store.Lawful reading scheme.traits.replacesKey) {answer : Option (K × V)}
    {after : Map K V} (removed : Removed (reading.rules exact) scheme key map answer after)
    (has : store.Has state map.table.entries) :
    (store.find key state).map Entry.pair = answer ∧
      store.Has (store.erase key state) after.table.entries := by
  cases answer with
  | none =>
    obtain ⟨absent, entries⟩ := removed
    obtain ⟨none, _, _, erase⟩ := lawful.missing has (absent.missing follows coherent)
    exact ⟨by rw [none]; rfl, lawful.perm erase entries.symm⟩
  | some pair =>
    obtain ⟨entry, rfl, judges, all⟩ := removed
    obtain ⟨found, _, _, erase⟩ :=
      lawful.found_perm has all (follows.judges_iff judges).symm
    exact ⟨by rw [found]; rfl, erase⟩

/-- The seed stands while pairs are inserted, which keeps the inserts of one call together. -/
theorem extend_ends (follows : scheme.Follows reading) (pairs : List (K × V)) :
    ∀ {map : Map K V} {env : Env δ}, env.grants = grants → map.Sound (reading.rules exact) →
      Ends (extend scheme pairs) (map, env)
        (fun _ s => s.1.Sound (reading.rules exact) ∧ s.1.id = map.id ∧
          map.table.exponent ≤ s.1.table.exponent ∧ s.1.table.seed = map.table.seed ∧
          (reading.Coherent → ∀ {σ : Type} {store : Store σ K V},
            store.Lawful reading scheme.traits.replacesKey → ∀ {state : σ},
            store.Has state map.table.entries →
              store.Has (pairs.foldl (fun state pair => store.write pair.1 pair.2 state) state)
                s.1.table.entries))
        (fun failure _ => ∃ key met, scheme.Fails grants key met ∧ failure = met.unhandled) := by
  induction pairs with
  | nil =>
    intro map env _ sound
    exact ⟨sound, rfl, Nat.le_refl _, rfl, fun _ _ _ _ _ has => has⟩
  | cons pair pairs ih =>
    intro map env memory sound
    change Ends (do discard (insert scheme pair.1 pair.2); extend scheme pairs) _ _ _
    rw [ends_bind, ends_discard]
    unfold insert
    rw [ends_orAbort]
    refine ((insert?_ends (reading.rules_keptBy follows.reproduces exact) sound pair.2 env).leaving
      leaves_insert?).mono ?_ ?_
    · rintro prior ⟨between, env⟩ ⟨written, same⟩
      refine (ih (Eq.trans same memory) written.sound).mono ?_ fun failure _ fails => fails
      rintro _ ⟨after, env⟩ ⟨sound', id, exponent, seed, simulated⟩
      refine ⟨sound', id.trans written.id, Nat.le_trans written.table.exponent_le exponent,
        seed.trans written.table.seed, fun coherent σ store lawful state has => ?_⟩
      obtain ⟨_, has'⟩ := written.table.stored.has follows coherent lawful has
      have value : prior.elim pair.2 (fun _ => pair.2) = pair.2 := by cases prior <;> rfl
      rw [value] at has'
      exact simulated coherent lawful has'
    · exact fun failure s fails => ⟨_, failure, memory ▸ fails.1.2, rfl⟩

end Map

/-- The call does to the entries what it does to any store that has them. -/
def Call.Refines (reading : Reading K) (replaces : Bool) (call : Call K V ρ)
    (before : List (Entry K V) × ρ) (answer : Answer K V) (after : List (Entry K V) × ρ) : Prop :=
  reading.Coherent → ∀ {σ : Type} {store : Store σ K V}, store.Lawful reading replaces →
    ∀ {state : σ}, store.Has state before.1 → ∃ state',
      store.Step call (state, before.2) answer (state', after.2) ∧ store.Has state' after.1

namespace Call

structure Answered (reading : Reading K) (exact : Prop) (scheme : KeyScheme K δ)
    (call : Call K V ρ) (map : Map K V) (own : ρ) (answer : Answer K V) (map' : Map K V)
    (own' : ρ) : Prop where
  sound : map'.Sound (reading.rules exact)
  onward : Map.Onward map map'
  refines : call.Refines reading scheme.traits.replacesKey (map.table.entries, own) answer
    (map'.table.entries, own')

/-- A call that failed for a reason of the scheme or for want of memory. -/
structure Failed (rules : Rules K) (scheme : KeyScheme K δ) (grants : Nat → Bool)
    (map : Map K V) (own : ρ)
    (failure : Failure) (map' : Map K V) (own' : ρ) : Prop where
  spared : ∀ fault, failure = .fault fault → Map.Spared rules map map' ∧ own' = own
  reason : ∃ key met, scheme.Fails grants key met ∧ failure.unhandled = met.unhandled

theorem Failed.of_fails {rules : Rules K} {failure : Failure} {map' : Map K V}
    (spared : Map.Spared rules map map') (fails : scheme.Fails grants key failure) :
    Failed rules scheme grants map own failure map' own :=
  ⟨fun _ _ => ⟨spared, rfl⟩, key, failure, fails, rfl⟩

theorem unhandled_unhandled (failure : Failure) :
    failure.unhandled.unhandled = failure.unhandled := by
  cases failure <;> rfl

theorem Failed.of_unhandled {rules : Rules K} {met : Failure} {map' : Map K V} {own' : ρ}
    (fails : scheme.Fails grants key met) :
    Failed rules scheme grants map own met.unhandled map' own' := by
  refine ⟨fun fault eq => ?_, key, met, fails, unhandled_unhandled met⟩
  cases met <;> cases eq

/-- A call that reads answers what a store does, and leaves the map alone. -/
theorem Answered.of_read {call : Call K V ρ} {answer : Answer K V}
    (sound : map.Sound (reading.rules exact))
    (step : reading.Coherent → ∀ {σ : Type} {store : Store σ K V},
      store.Lawful reading scheme.traits.replacesKey → ∀ {state : σ},
      store.Has state map.table.entries → store.Step call (state, own) answer (state, own)) :
    Answered reading exact scheme call map own answer map own :=
  ⟨sound, .refl map, fun coherent _ _ lawful state has => ⟨state, step coherent lawful has, has⟩⟩

/-- What an attempt at a call comes to. -/
def Settles (reading : Reading K) (exact : Prop) (scheme : KeyScheme K δ) (call : Call K V ρ)
    (map : Map K V) (env : Env δ) (own : ρ) : Prop :=
  Ends (call.attempt scheme) ((map, env), own)
    (fun answer s => Answered reading exact scheme call map own answer s.1.1 s.2)
    (fun failure s => Failed (reading.rules exact) scheme env.grants map own failure s.1.1 s.2)

section

variable (follows : scheme.Follows reading) (sound : map.Sound (reading.rules exact))
include sound

theorem settles_clear :
    (clear : Call K V ρ).Settles reading exact scheme map env own := by
  unfold Settles attempt
  rw [ends_map, ends_first]
  apply (Map.clear_yields sound env).ends
  rintro _ ⟨map', env⟩ ⟨sound', onward, none⟩
  refine ⟨sound', onward, fun coherent σ store lawful state has => ⟨_, .clear, ?_⟩⟩
  rw [none]
  exact lawful.empty

theorem settles_len :
    (len : Call K V ρ).Settles reading exact scheme map env own := by
  unfold Settles attempt
  rw [ends_first, ends_bind, Map.ends_read]
  refine .of_read sound fun coherent σ store lawful state has => ?_
  rw [Map.len, sound.table.count]
  exact .len has

include follows

theorem settles_insert (key : K) (value : V) :
    (insert key value : Call K V ρ).Settles reading exact scheme map env own := by
  have kept := reading.rules_keptBy follows.reproduces exact
  unfold Settles attempt
  rw [ends_map, ends_first]
  refine (Map.insert?_ends kept sound value env).mono ?_ fun _ _ h => .of_fails h.1 h.2
  rintro prior ⟨map', env⟩ written
  refine ⟨written.sound, written.onward, fun coherent σ store lawful state has => ?_⟩
  obtain ⟨found, has'⟩ := written.table.stored.has follows coherent lawful has
  have stored : prior.elim value (fun _ => value) = value := by cases prior <;> rfl
  rw [stored] at has'
  exact ⟨_, found ▸ .insert, has'⟩

theorem settles_getOrInsert (key : K) (default : StateM ρ V) (f : V → V) :
    (getOrInsert key default f : Call K V ρ).Settles reading exact scheme map env own := by
  have kept := reading.rules_keptBy follows.reproduces exact
  unfold Settles attempt
  rw [ends_map]
  refine (Map.getOrInsert?_ends kept sound _ f env).mono ?_ ?_
  · rintro answer ⟨⟨map', env⟩, own'⟩ (⟨old, rfl, rfl, written⟩ | ⟨value, run, rfl, rfl, written⟩)
    · refine ⟨written.sound, written.onward, fun coherent σ store lawful state has => ?_⟩
      obtain ⟨found, has'⟩ := written.table.stored.has follows coherent lawful has
      obtain ⟨entry, here, rfl⟩ := Option.map_eq_some_iff.mp found
      exact ⟨_, .overwrite here, has'⟩
    · obtain rfl := Except.ok.inj run
      refine ⟨written.sound, written.onward, fun coherent σ store lawful state has => ?_⟩
      obtain ⟨found, has'⟩ := written.table.stored.has follows coherent lawful has
      exact ⟨_, .enter (Option.map_eq_none_iff.mp found), has'⟩
  · rintro failure ⟨⟨map', env⟩, own'⟩ ⟨spared, ⟨rfl, fails⟩ | ⟨text, raised, _⟩⟩
    · exact .of_fails spared fails
    · cases raised

theorem settles_get (key : K) :
    (get key : Call K V ρ).Settles reading exact scheme map env own := by
  unfold Settles attempt
  rw [ends_reading]
  unfold Map.get?
  rw [ends_bind]
  refine (Map.getPair?_ends sound env.keys).mono ?_ fun _ _ h => .of_fails (.refl sound) h
  intro answer keys looked
  refine .of_read sound fun coherent σ store lawful state has => ?_
  rw [← looked.find follows coherent lawful has, Option.map_map]
  exact .get

theorem settles_getPair (key : K) :
    (getPair key : Call K V ρ).Settles reading exact scheme map env own := by
  unfold Settles attempt
  rw [ends_reading]
  refine (Map.getPair?_ends sound env.keys).mono ?_ fun _ _ h => .of_fails (.refl sound) h
  intro answer keys looked
  refine .of_read sound fun coherent σ store lawful state has => ?_
  rw [← looked.find follows coherent lawful has]
  exact .getPair

theorem settles_contains (key : K) :
    (contains key : Call K V ρ).Settles reading exact scheme map env own := by
  unfold Settles attempt
  rw [ends_reading]
  unfold Map.contains?
  rw [ends_bind]
  refine (Map.position?_ends sound env.keys).mono ?_ fun _ _ h => .of_fails (.refl sound) h
  intro found keys sought
  refine .of_read sound fun coherent σ store lawful state has => ?_
  rw [← sought.find follows coherent lawful sound has]
  exact .contains

theorem settles_adjust (key : K) (f : V → V) :
    (adjust key f : Call K V ρ).Settles reading exact scheme map env own := by
  unfold Settles attempt
  rw [ends_map, ends_first]
  apply (Map.adjust_ends sound f env.grants env).mono
  · rintro answer ⟨map', env⟩ ⟨sound', onward, adjusted⟩
    refine ⟨sound', onward, fun coherent σ store lawful state has => ?_⟩
    obtain ⟨found, has'⟩ := adjusted.has follows coherent lawful has
    exact ⟨_, found ▸ .adjust, has'⟩
  · rintro _ s ⟨_, met, fails, rfl⟩
    exact .of_unhandled fails

theorem settles_remove (key : K) :
    (remove key : Call K V ρ).Settles reading exact scheme map env own := by
  have kept := reading.rules_keptBy follows.reproduces exact
  unfold Settles attempt Map.remove?
  rw [ends_map, ends_first, ends_bind]
  refine (Map.removePair?_ends kept sound env.grants env).mono ?_ fun _ _ h => .of_fails h.1 h.2
  rintro answer ⟨map', env⟩ ⟨sound', onward, removed⟩
  refine ⟨sound', onward, fun coherent σ store lawful state has => ?_⟩
  obtain ⟨found, has'⟩ := removed.has follows coherent lawful has
  rw [← found, Option.map_map]
  exact ⟨_, .remove, has'⟩

theorem settles_removePair (key : K) :
    (removePair key : Call K V ρ).Settles reading exact scheme map env own := by
  have kept := reading.rules_keptBy follows.reproduces exact
  unfold Settles attempt
  rw [ends_map, ends_first]
  refine (Map.removePair?_ends kept sound env.grants env).mono ?_ fun _ _ h => .of_fails h.1 h.2
  rintro answer ⟨map', env⟩ ⟨sound', onward, removed⟩
  refine ⟨sound', onward, fun coherent σ store lawful state has => ?_⟩
  obtain ⟨found, has'⟩ := removed.has follows coherent lawful has
  exact ⟨_, found ▸ .removePair, has'⟩

theorem settles_extend (pairs : List (K × V)) :
    (extend pairs : Call K V ρ).Settles reading exact scheme map env own := by
  unfold Settles attempt
  rw [ends_map, ends_first]
  apply (Map.extend_ends follows pairs rfl sound).mono
  · rintro _ ⟨map', env⟩ ⟨sound', id, exponent, seed, simulated⟩
    refine ⟨sound', ⟨id, exponent, .inl seed⟩, fun coherent σ store lawful state has => ?_⟩
    exact ⟨_, .extend, simulated coherent lawful has⟩
  · rintro _ s ⟨key, met, fails, rfl⟩
    exact .of_unhandled fails

theorem settles_retain (f : K → V → StateM ρ (V × Bool)) :
    (retain f : Call K V ρ).Settles reading exact scheme map env own := by
  have kept := reading.rules_keptBy follows.reproduces exact
  unfold Settles attempt
  rw [ends_map]
  apply (Map.retain_ends kept sound (calmly f) env).mono
  · rintro _ ⟨⟨map', env⟩, own'⟩ ⟨sound', onward, order, left, all, run, entries⟩
    refine ⟨sound', onward, fun coherent σ store lawful state has => ?_⟩
    have has := lawful.perm has all.symm
    obtain ⟨state', has'⟩ := lawful.renewed has run.keys
    exact ⟨state', .retain has run has', lawful.perm has' entries.symm⟩
  · rintro failure s ⟨_, _, order, left, text, _, run, _⟩
    exact absurd run (Keeps.not_raised_calmly f)

theorem settles_sweep (writes : List (V → V)) :
    (sweep writes : Call K V ρ).Settles reading exact scheme map env own := by
  have kept := reading.rules_keptBy follows.reproduces exact
  unfold Settles attempt
  rw [ends_first, ends_bind]
  apply (Sweep.ofMap_yields kept sound.table sound.free env).ends
  rintro sweep ⟨between, env⟩ ⟨free, id, steady, order, all, under⟩
  rw [ends_bind]
  apply (Sweep.through_yields writes under).ends
  rintro ⟨pairs, sweep'⟩ ⟨map', env⟩ ⟨rfl, under', passes⟩
  have exponent := passes.exponent.trans steady.exponent
  have entries := under'.entries.trans
    (((List.reverse_perm _).append_right []).append_right _)
  rw [List.append_nil] at entries
  refine ⟨⟨under'.sound, fun small => ⟨under'.idle, ?_⟩, passes.latch ▸ free⟩,
    ⟨passes.id.trans id, Nat.le_of_eq exponent.symm, .inl (passes.seed.trans steady.seed)⟩, ?_⟩
  · rw [exponent] at small
    rw [exponent, passes.count, steady.count]
    exact (sound.snug small).2
  · intro coherent σ store lawful state has
    have has := lawful.perm has all.symm
    obtain ⟨state', has'⟩ := lawful.renewed has (Sweep.keys_written writes order)
    exact ⟨state', .sweep has has', lawful.perm has' entries.symm⟩

theorem settles_list :
    (list : Call K V ρ).Settles reading exact scheme map env own := by
  unfold Settles attempt
  rw [ends_reading]
  apply (Map.toList_yields follows sound.table sound.free env.keys).ends
  rintro pairs keys ⟨order, all, rfl⟩
  refine .of_read sound fun coherent σ store lawful state has => ?_
  exact .list (lawful.perm has all.symm)

end

theorem attempt_settles (follows : scheme.Follows reading) (sound : map.Sound (reading.rules exact))
    (call : Call K V ρ) :
    call.Settles reading exact scheme map env own := by
  cases call with
  | insert key value => exact settles_insert follows sound key value
  | getOrInsert key default f => exact settles_getOrInsert follows sound key default f
  | get key => exact settles_get follows sound key
  | getPair key => exact settles_getPair follows sound key
  | contains key => exact settles_contains follows sound key
  | adjust key f => exact settles_adjust follows sound key f
  | remove key => exact settles_remove follows sound key
  | removePair key => exact settles_removePair follows sound key
  | extend pairs => exact settles_extend follows sound pairs
  | clear => exact settles_clear sound
  | retain f => exact settles_retain follows sound f
  | sweep writes => exact settles_sweep follows sound writes
  | list => exact settles_list follows sound
  | len => exact settles_len sound

/-- A call that did not abort was answered, or has changed no entry. -/
theorem settled (follows : scheme.Follows reading) (sound : map.Sound (reading.rules exact))
    (call : Call K V ρ) {result : Except Failure (Answer K V)} {map' : Map K V} {env' : Env δ}
    {own' : ρ} (run : call.attempt scheme ((map, env), own) = (result, ((map', env'), own')))
    (calm : ∀ cause, result ≠ .error (.abort cause)) :
    (∃ answer, Answered reading exact scheme call map own answer map' own') ∨
      Map.Spared (reading.rules exact) map map' := by
  rcases result with (fault | cause) | answer
  · exact .inr (((attempt_settles follows sound call).failure run).spared fault rfl).1
  · exact absurd rfl (calm cause)
  · exact .inl ⟨answer, (attempt_settles follows sound call).answer run⟩

theorem onward (follows : scheme.Follows reading) (sound : map.Sound (reading.rules exact))
    (call : Call K V ρ) {result : Except Failure (Answer K V)} {map' : Map K V} {env' : Env δ}
    {own' : ρ} (run : call.attempt scheme ((map, env), own) = (result, ((map', env'), own')))
    (calm : ∀ cause, result ≠ .error (.abort cause)) : Map.Onward map map' := by
  rcases call.settled follows sound run calm with ⟨_, answered⟩ | spared
  · exact answered.onward
  · exact spared.onward

/-- Calls of a caller that handles no faults: an answer to each, or a fault that stops them. -/
theorem performAll_ends (follows : scheme.Follows reading) (coherent : reading.Coherent)
    (lawful : store.Lawful reading scheme.traits.replacesKey) (calls : List (Call K V ρ)) :
    ∀ {map : Map K V} {env : Env δ} {own : ρ} {state : σ}, env.grants = grants →
      map.Sound (reading.rules exact) → store.Has state map.table.entries →
      Ends (performAll scheme calls) ((map, env), own)
        (fun answers s => ∃ state', store.Run calls (state, own) answers (state', s.2) ∧
          store.Has state' s.1.1.table.entries)
        (fun failure _ => ∃ key met, scheme.Fails grants key met ∧ failure = met.unhandled) := by
  induction calls with
  | nil =>
    intro map env own state _ sound has
    exact ⟨state, .nil, has⟩
  | cons call calls ih =>
    intro map env own state memory sound has
    unfold performAll perform
    rw [ends_bind, ends_orAbort]
    refine ((attempt_settles follows sound call).leaving (leaves_attempt call)).mono ?_
      fun failure s failed => memory ▸ failed.1.reason
    rintro answer ⟨⟨between, env⟩, own'⟩ ⟨answered, same⟩
    obtain ⟨state', step, has'⟩ := answered.refines coherent lawful has
    rw [ends_bind]
    refine (ih (Eq.trans same memory) answered.sound has').mono ?_ fun _ _ fails => fails
    rintro answers s ⟨state'', run, has''⟩
    exact ⟨state'', .cons step run, has''⟩

end Call

/-- A key that can be looked up is refused. -/
def Reading.Refuses (reading : Reading K) (failure : Failure) : Prop :=
  ∃ key seed refusal, reading.same key key = true ∧ reading.code key seed = .error refusal ∧
    failure = .fault (.refused refusal)

theorem Reading.Total.not_refuses (total : reading.Total) {failure : Failure} :
    ¬ reading.Refuses failure := by
  rintro ⟨key, seed, refusal, known, refused, _⟩
  obtain ⟨hash, code⟩ := total key seed known
  rw [refused] at code
  cases code

theorem KeyScheme.Fails.refused_or_denied (follows : scheme.Follows reading) {failure : Failure}
    (fails : scheme.Fails grants key failure) :
    reading.Refuses failure ∨ Denied grants failure := by
  rcases fails with ⟨seed, declines⟩ | balks | denied
  · obtain ⟨known, refusal, refused, failed⟩ := follows.declines declines
    exact .inl ⟨key, seed, refusal, known, refused, failed⟩
  · exact absurd balks follows.not_balks
  · exact .inr denied

theorem session_ends (follows : scheme.Follows reading) (coherent : reading.Coherent)
    (lawful : store.Lawful reading scheme.traits.replacesKey) (origin : Origin)
    (calls : List (Call K V ρ)) (env : Env δ) (own : ρ) :
    Ends (session scheme origin calls) (env, own)
      (fun result s => ∃ state, store.Run calls (store.empty, own) result.1 (state, s.2) ∧
        store.Has state result.2.table.entries)
      (fun failure _ => ∃ met, (reading.Refuses met ∨ Denied env.grants met) ∧
        failure = met.unhandled) := by
  unfold session
  rw [ends_bind, ends_first, ends_orAbort]
  refine ((origin.make?_ends (reading.rules True) env).leaving origin.leaves_make?).mono ?_
    fun failure s denied => ⟨failure, .inr denied.1, rfl⟩
  rintro map env' ⟨⟨sound, none⟩, same⟩
  have has : store.Has store.empty map.table.entries := none ▸ lawful.empty
  have ended : Ends (Call.performAll scheme calls) ((map, env'), own) _ _ :=
    Call.performAll_ends follows coherent lawful calls same sound has
  unfold Ends at *
  simp only
  generalize Call.performAll scheme calls ((map, env'), own) = run at *
  obtain ⟨failure | answers, ⟨map', env''⟩, own'⟩ := run
  · obtain ⟨key, met, fails, rfl⟩ := ended
    exact ⟨met, fails.refused_or_denied follows, rfl⟩
  · exact ended

namespace Reachable

/-- The calls that led to a map leave it whole, whatever the keys. -/
theorem sound (follows : scheme.Follows reading) (reachable : Reachable scheme map) :
    map.Sound (reading.rules exact) := by
  induction reachable with
  | made origin env run =>
    exact ((origin.make?_ends _ env).of_ok run).sound
  | called call _ run calm ih =>
    rcases call.settled follows ih run calm with ⟨answer, answered⟩ | spared
    · exact answered.sound
    · exact spared.sound

/-- Its entries are those of some store. -/
theorem has (follows : scheme.Follows reading) (coherent : reading.Coherent)
    (lawful : store.Lawful reading scheme.traits.replacesKey) (reachable : Reachable scheme map) :
    ∃ state, store.Has state map.table.entries := by
  induction reachable with
  | made origin env run =>
    rw [((origin.make?_ends (reading.rules True) env).of_ok run).empty]
    exact ⟨store.empty, lawful.empty⟩
  | called call reachable run calm ih =>
    obtain ⟨state, has⟩ := ih
    have sound : Map.Sound (reading.rules True) _ := reachable.sound follows
    rcases call.settled follows sound run calm with ⟨answer, answered⟩ | spared
    · obtain ⟨state', _, has'⟩ := answered.refines coherent lawful has
      exact ⟨state', has'⟩
    · exact ⟨state, lawful.perm has spared.regrown.entries.symm⟩

end Reachable

end GradualMap
