import GradualMap.Proofs.Dictionary
import GradualMap.Proofs.Unison

/-!
Calls in calm surroundings. A scheme may answer there whatever it is asked, though it gives up
elsewhere; calls are then answered as under a scheme that never gives up. A call that fails does so
for a key of its own or for want of memory.
-/

namespace GradualMap

open GradualMap.Action

variable {K V δ ρ : Type} {reading : Reading K} {scheme : KeyScheme K δ} {rules : Rules K}
  {map : Map K V} {env : Env δ} {own : ρ} {calm : KeyEnv δ → Prop} {exact : Prop}

namespace KeyScheme

/-- Surroundings in which the scheme answers whatever it is asked, and which it does not leave. -/
structure Calms (scheme : KeyScheme K δ) (reading : Reading K) (calm : KeyEnv δ → Prop) :
    Prop where
  equal : ∀ a b env, calm env → (scheme.equal a b env).1 = .ok (reading.same a b) ∧
    calm (scheme.equal a b env).2
  hash : ∀ key seed env, calm env → (scheme.hash key seed env).1 = .ok (reading.code key seed) ∧
    calm (scheme.hash key seed env).2
  draw : ∀ env, calm env → calm { env with draws := env.draws.next.2 }

/-- The scheme as it would be if it answered as `reading` says in all surroundings. -/
def tamed (scheme : KeyScheme K δ) (reading : Reading K) : KeyScheme K δ where
  traits := scheme.traits
  hash key seed := fun env => (.ok (reading.code key seed), (scheme.hash key seed env).2)
  equal a b := fun env => (.ok (reading.same a b), (scheme.equal a b env).2)

theorem tamed_follows (known : ∀ key, reading.same key key = true) :
    (scheme.tamed reading).Follows reading where
  equal _ _ _ := rfl
  hash _ _ _ _ := rfl
  stray key _ _ stray := by
    rw [Reading.Stray, known key] at stray
    cases stray
  reflexive _ := known

theorem Calms.accord (calms : scheme.Calms reading calm) :
    scheme.Accord (scheme.tamed reading) calm where
  traits := rfl
  hash key seed env h := ⟨Prod.ext (calms.hash key seed env h).1 rfl, (calms.hash key seed env h).2⟩
  equal a b env h := ⟨Prod.ext (calms.equal a b env h).1 rfl, (calms.equal a b env h).2⟩
  draw := calms.draw

end KeyScheme

/-- A masked scheme is calm with no trap set and nothing to refuse. -/
theorem Key.masked_calms {config : Key.Masked} (plain : config.nanLike = 0) :
    config.scheme.Calms (Key.maskedReading config) fun env =>
      env.own.trap = none ∧ env.own.refuse = 0 where
  equal a b env calm := by
    rw [Key.masked_equal, calm.1]
    exact ⟨rfl, rfl, calm.2⟩
  hash key seed env calm := by
    rw [Key.masked_hash (by rw [plain, UInt64.and_zero]), calm.2, UInt64.and_zero]
    exact ⟨rfl, calm.1, rfl⟩
  draw _ calm := calm

namespace Action

variable {σ α : Type} {act : Action σ α} {s after : σ}

/-- The same operation for a caller that looks at its faults. -/
def caught (act : Action σ α) : Action σ (Except Fault α) := fun s =>
  match act s with
  | (.ok a, s) => (.ok (.ok a), s)
  | (.error (.fault met), s) => (.ok (.error met), s)
  | (.error (.abort cause), s) => (.error (.abort cause), s)

theorem Ends.of_same {act' : Action σ α} {post : α → σ → Prop} {fails : Failure → σ → Prop}
    (h : act'.Ends s post fails) (same : act s = act' s) : act.Ends s post fails := by
  unfold Ends
  rwa [same]

theorem ends_caught {post : Except Fault α → σ → Prop} {fails : Failure → σ → Prop} :
    act.caught.Ends s post fails ↔ act.Ends s (fun a s => post (.ok a) s) fun failure s =>
      match failure with
      | .fault met => post (.error met) s
      | .abort cause => fails (.abort cause) s := by
  unfold Ends caught
  rcases act s with ⟨(_ | _) | _, _⟩ <;> rfl

end Action

/-- It is an insert that fails where an extension does. -/
theorem Map.extend_fails {grants : Nat → Bool} (kept : rules.KeptBy scheme) (pairs : List (K × V)) :
    ∀ {map : Map K V} {env : Env δ}, env.grants = grants → map.Sound rules →
      Ends (extend scheme pairs) (map, env) (fun _ _ => True) fun failure _ =>
        ∃ pair ∈ pairs, ∃ met, scheme.Fails grants pair.1 met ∧ failure = met.unhandled := by
  induction pairs with
  | nil => exact fun _ _ => trivial
  | cons pair pairs ih =>
    intro map env memory sound
    change Ends (do discard (insert scheme pair.1 pair.2); extend scheme pairs) _ _ _
    unfold insert
    rw [ends_bind, ends_discard, ends_orAbort]
    refine ((insert?_ends kept sound pair.2 env).leaving leaves_insert?).mono ?_ ?_
    · rintro _ ⟨between, env'⟩ ⟨written, same⟩
      refine (ih (Eq.trans same memory) written.sound).mono (fun _ _ h => h) ?_
      rintro failure _ ⟨other, mem, failed⟩
      exact ⟨other, .tail _ mem, failed⟩
    · exact fun failure s failed => ⟨pair, .head _, failure, memory ▸ failed.1.2, rfl⟩

namespace Call

/-- The keys that a call is about. -/
def keys : Call K V ρ → List K
  | .insert key _ | .getOrInsert key _ _ | .get key | .getPair key | .contains key | .adjust key _
  | .remove key | .removePair key => [key]
  | .extend pairs => pairs.map (·.1)
  | _ => []

/-- What a call fails for in which nothing raises: a key of its own, or want of memory. -/
def Hindered (reading : Reading K) (grants : Nat → Bool) (call : Call K V ρ) (failure : Failure) :
    Prop :=
  (∃ key ∈ call.keys, ∃ seed refusal, reading.code key seed = .error refusal ∧
    failure = .fault (.refused refusal)) ∨ Denied grants failure

theorem hindered_of_fails {grants : Nat → Bool} {call : Call K V ρ} {key : K} {failure : Failure}
    (follows : scheme.Follows reading) (mem : key ∈ call.keys)
    (fails : scheme.Fails grants key failure) : call.Hindered reading grants failure := by
  rcases fails with ⟨seed, declines⟩ | balks | denied
  · obtain ⟨_, refusal, refused, failed⟩ := follows.declines declines
    exact .inl ⟨key, mem, seed, refusal, refused, failed⟩
  · exact absurd balks follows.not_balks
  · exact .inr denied

/-- What hinders a call is a fault, and the same one whether or not its caller handles it. -/
theorem Hindered.of_unhandled {grants : Nat → Bool} {call : Call K V ρ} {met : Failure}
    {fault : Fault} (hindered : call.Hindered reading grants met)
    (same : (Failure.fault fault).unhandled = met.unhandled) :
    call.Hindered reading grants (.fault fault) := by
  have faulty : ∃ fault, met = .fault fault := by
    rcases hindered with ⟨_, _, _, _, _, rfl⟩ | ⟨_, rfl, _⟩
    · exact ⟨_, rfl⟩
    · exact ⟨_, rfl⟩
  obtain ⟨fault', rfl⟩ := faulty
  cases same
  exact hindered

/-- What an attempt at a call fails for. -/
theorem attempt_hindered (follows : scheme.Follows reading)
    (sound : map.Sound (reading.rules exact)) (call : Call K V ρ) (env : Env δ) (own : ρ) :
    Ends (call.attempt scheme) ((map, env), own) (fun _ _ => True)
      fun failure _ => ∃ met, call.Hindered reading env.grants met ∧
        failure.unhandled = met.unhandled := by
  have kept := reading.rules_keptBy follows.reproduces exact
  have fails {call : Call K V ρ} {key : K} (mem : key ∈ call.keys) {failure : Failure}
      (fails : scheme.Fails env.grants key failure) :
      ∃ met, call.Hindered reading env.grants met ∧ failure.unhandled = met.unhandled :=
    ⟨failure, hindered_of_fails follows mem fails, rfl⟩
  have removes (key : K) : Ends (Map.removePair? scheme key) (map, env) (fun _ _ => True)
      fun failure _ => scheme.Fails env.grants key failure :=
    (Map.removePair?_ends kept sound env.grants env).mono (fun _ _ _ => trivial) fun _ _ => And.right
  cases call with
  | insert key value =>
    exact ends_map.mpr (ends_first.mpr ((Map.insert?_ends kept sound value env).mono
      (fun _ _ _ => trivial) fun _ _ h => fails (.head _) h.2))
  | getOrInsert key default f =>
    refine ends_map.mpr ((Map.getOrInsert?_ends kept sound _ f env).mono (fun _ _ _ => trivial) ?_)
    rintro failure s ⟨_, ⟨_, failed⟩ | ⟨text, raised, _⟩⟩
    · exact fails (.head _) failed
    · cases raised
  | get key =>
    unfold attempt Map.get?
    rw [ends_reading, ends_bind]
    exact (Map.getPair?_ends sound env.keys).mono (fun _ _ _ => trivial) fun _ _ => fails (.head _)
  | getPair key =>
    unfold attempt
    rw [ends_reading]
    exact (Map.getPair?_ends sound env.keys).mono (fun _ _ _ => trivial) fun _ _ => fails (.head _)
  | contains key =>
    unfold attempt Map.contains?
    rw [ends_reading, ends_bind]
    exact (Map.position?_ends sound env.keys).mono (fun _ _ _ => trivial) fun _ _ => fails (.head _)
  | adjust key f =>
    refine ends_map.mpr (ends_first.mpr ((Map.adjust_ends sound f env.grants env).mono
      (fun _ _ _ => trivial) ?_))
    rintro _ s ⟨_, met, failed, rfl⟩
    exact ⟨met, hindered_of_fails follows (.head _) failed, unhandled_unhandled met⟩
  | remove key =>
    refine ends_map.mpr (ends_first.mpr (ends_map.mpr ?_))
    exact (removes key).mono (fun _ _ _ => trivial) fun _ _ => fails (.head _)
  | removePair key =>
    refine ends_map.mpr (ends_first.mpr ?_)
    exact (removes key).mono (fun _ _ _ => trivial) fun _ _ => fails (.head _)
  | extend pairs =>
    refine ends_map.mpr (ends_first.mpr ((Map.extend_fails kept pairs rfl sound).mono
      (fun _ _ h => h) ?_))
    rintro _ s ⟨pair, mem, met, failed, rfl⟩
    exact ⟨met, hindered_of_fails follows (List.mem_map_of_mem mem) failed, unhandled_unhandled met⟩
  | clear =>
    exact ends_map.mpr (ends_first.mpr ((Map.clear_yields sound env).ends fun _ _ _ => trivial))
  | retain f =>
    refine ends_map.mpr ((Map.retain_ends kept sound (calmly f) env).mono (fun _ _ _ => trivial) ?_)
    rintro failure s ⟨_, _, order, left, text, _, run, _⟩
    exact absurd run (Keeps.not_raised_calmly f)
  | sweep writes =>
    unfold attempt
    rw [ends_first, ends_bind]
    apply (Sweep.ofMap_yields kept sound.table sound.free env).ends
    rintro sweep ⟨between, env'⟩ ⟨_, _, _, order, _, under⟩
    rw [ends_bind]
    exact (Sweep.through_yields writes under).ends fun _ _ _ => trivial
  | list =>
    unfold attempt
    rw [ends_reading]
    exact (Map.toList_yields follows sound.table sound.free env.keys).ends fun _ _ _ => trivial
  | len => trivial

/-- Calls one after another, of a caller that looks at their faults. -/
def askAll (scheme : KeyScheme K δ) :
    List (Call K V ρ) → Action ((Map K V × Env δ) × ρ) (List (Except Fault (Answer K V)))
  | [] => return []
  | call :: calls => do
    let outcome ← (call.attempt scheme).caught
    return outcome :: (← askAll scheme calls)

end Call

/-- The store answers the calls, but for those that are hindered: nothing comes of them. -/
inductive Store.Serves {σ : Type} (store : Store σ K V) (reading : Reading K)
    (grants : Nat → Bool) :
    List (Call K V ρ) → σ × ρ → List (Except Fault (Answer K V)) → σ × ρ → Prop
  | nil {state : σ × ρ} : Serves store reading grants [] state [] state
  | answered {call : Call K V ρ} {calls : List (Call K V ρ)} {answer : Answer K V}
      {outcomes : List (Except Fault (Answer K V))} {before between after : σ × ρ}
      (step : store.Step call before answer between)
      (serves : Serves store reading grants calls between outcomes after) :
      Serves store reading grants (call :: calls) before (.ok answer :: outcomes) after
  | hindered {call : Call K V ρ} {calls : List (Call K V ρ)} {fault : Fault}
      {outcomes : List (Except Fault (Answer K V))} {before after : σ × ρ}
      (met : call.Hindered reading grants (.fault fault))
      (serves : Serves store reading grants calls before outcomes after) :
      Serves store reading grants (call :: calls) before (.error fault :: outcomes) after

namespace Call

/-- In calm surroundings, which it does not leave, an attempt comes to what it would come to under
the tamed scheme. -/
theorem attempt_calmly (known : ∀ key, reading.same key key = true)
    (calms : scheme.Calms reading calm) (quiet : calm env.keys)
    (sound : map.Sound (reading.rules exact)) (call : Call K V ρ) :
    Ends (call.attempt scheme) ((map, env), own)
      (fun answer s => (calm s.1.2.keys ∧ s.1.2.grants = env.grants) ∧
        Answered reading exact (scheme.tamed reading) call map own answer s.1.1 s.2)
      (fun failure s => (calm s.1.2.keys ∧ s.1.2.grants = env.grants) ∧
        (∀ fault, failure = .fault fault →
          Map.Spared (reading.rules exact) map s.1.1 ∧ s.2 = own) ∧
        ∃ met, call.Hindered reading env.grants met ∧ failure.unhandled = met.unhandled) := by
  have follows := scheme.tamed_follows known
  have enduring : Table.Enduring fun _ : Table K V × List Event => True := fun _ _ => trivial
  obtain ⟨same, _, quiet'⟩ := call.twin_attempt enduring calms.accord ((map, env), own)
    ⟨trivial, quiet⟩
  have settles := (Ends.both (call.attempt_settles follows sound)
    (call.attempt_hindered follows sound env own)).of_same same
  refine ((settles.leaving (leaves_attempt call)).both ends_run).mono ?_ ?_
  · rintro answer s ⟨⟨⟨answered, _⟩, kept⟩, run⟩
    rw [run] at quiet'
    exact ⟨⟨quiet', kept⟩, answered⟩
  · rintro failure s ⟨⟨⟨failed, hindered⟩, kept⟩, run⟩
    rw [run] at quiet'
    exact ⟨⟨quiet', kept⟩, failed.spared, hindered⟩

/-- In calm surroundings calls are answered as a store answers them. -/
theorem askAll_ends {σ : Type} {store : Store σ K V} {grants : Nat → Bool}
    (coherent : reading.Coherent) (known : ∀ key, reading.same key key = true)
    (calms : scheme.Calms reading calm) (lawful : store.Lawful reading scheme.traits.replacesKey)
    (calls : List (Call K V ρ)) :
    ∀ {map : Map K V} {env : Env δ} {own : ρ} {state : σ}, calm env.keys → env.grants = grants →
      map.Sound (reading.rules exact) → store.Has state map.table.entries →
      Ends (askAll scheme calls) ((map, env), own)
        (fun outcomes s => ∃ state',
          store.Serves reading grants calls (state, own) outcomes (state', s.2) ∧
            store.Has state' s.1.1.table.entries)
        (fun failure _ => ∃ call ∈ calls, ∃ met, call.Hindered reading grants met ∧
          failure = met.unhandled) := by
  induction calls with
  | nil =>
    intro map env own state _ _ sound has
    exact ⟨state, .nil, has⟩
  | cons call calls ih =>
    intro map env own state quiet memory sound has
    have later {failure : Failure} (stopped : ∃ call ∈ calls, ∃ met,
        call.Hindered reading grants met ∧ failure = met.unhandled) :
        ∃ other ∈ call :: calls, ∃ met,
          other.Hindered reading grants met ∧ failure = met.unhandled := by
      obtain ⟨other, mem, stopped⟩ := stopped
      exact ⟨other, .tail _ mem, stopped⟩
    unfold askAll
    rw [ends_bind, ends_caught]
    apply (call.attempt_calmly known calms quiet sound).mono
    · rintro answer ⟨⟨between, env'⟩, own'⟩ ⟨⟨quiet', kept⟩, answered⟩
      obtain ⟨state', step, has'⟩ := answered.refines coherent lawful has
      rw [ends_bind]
      refine (ih quiet' (Eq.trans kept memory) answered.sound has').mono ?_ fun _ _ => later
      rintro outcomes s ⟨state'', serves, has''⟩
      exact ⟨state'', .answered step serves, has''⟩
    · rintro (fault | cause) ⟨⟨between, env'⟩, own'⟩ ⟨⟨quiet', kept⟩, spared, met, hindered, same⟩
      · obtain ⟨unchanged, rfl⟩ := spared fault rfl
        have has' := lawful.perm has unchanged.regrown.entries.symm
        simp only
        rw [ends_bind]
        refine (ih quiet' (Eq.trans kept memory) unchanged.sound has').mono ?_ fun _ _ => later
        rintro outcomes s ⟨state', serves, has''⟩
        exact ⟨state', .hindered (memory ▸ hindered.of_unhandled same) serves, has''⟩
      · exact ⟨call, .head _, met, memory ▸ hindered, same⟩

end Call

end GradualMap
