import GradualMap.Proofs.Calm
import GradualMap.Proofs.Fault

/-!
What a raise leaves behind. A reflexive scheme compares no keys while entries are moved, so a
comparison that raises does so in a search, and a default raises before its slot is filled. Until
then nothing was done to the entries.
-/

namespace GradualMap

open GradualMap.Action

variable {K V δ ρ : Type} {reading : Reading K} {scheme : KeyScheme K δ} {rules : Rules K}
  {stalls : Failure → Prop} {map : Map K V} {env : Env δ} {own : ρ}

/-- A key that hashed when it was stored was refused. -/
def Failure.Forgets (failure : Failure) : Prop :=
  ∃ refusal, failure = .abort (.storedKeyRefused refusal)

namespace KeyScheme

/-- Hashes are reproduced and comparisons answer as `reading` says, but a comparison may raise. -/
structure Brittle (scheme : KeyScheme K δ) (reading : Reading K) : Prop where
  agrees : scheme.Agrees reading
  coherent : reading.Coherent
  reflexive : scheme.traits.reflexive = true
  hashes : ∀ key seed env text, (scheme.hash key seed env).1 ≠ .error text

theorem Brittle.rehash_ends (brittle : scheme.Brittle reading) (key : K) (seed : UInt64)
    (env : KeyEnv δ) :
    Ends (scheme.rehash key seed) env (fun _ _ => True) fun failure _ => failure.Forgets := by
  unfold rehash
  rw [ends_bind, KeyM.ends_toAction]
  rcases answer : scheme.hash key seed env with ⟨text | refusal | hash, after⟩
  · exact absurd (congrArg Prod.fst answer) (brittle.hashes key seed env text)
  · exact ⟨refusal, rfl⟩
  · trivial

/-- No comparison is made for an entry that is moved. -/
theorem Brittle.heldBy (brittle : scheme.Brittle reading)
    (held : rules.HeldBy scheme Failure.Aborts) : rules.HeldBy scheme Failure.Forgets where
  enters := held.enters
  splits {key seed size index top} admits bound env := by
    have forgets : Ends (Routing.route ⟨seed, false, size⟩ scheme top key) env (fun _ _ => True)
        fun failure _ => failure.Forgets := by
      unfold Routing.route selfEqual
      simp only [Bool.false_eq_true, if_false, brittle.reflexive, if_true, ends_bind]
      exact (brittle.rehash_ends key seed env).mono (fun _ _ _ => trivial) fun _ _ h => h
    exact ((held.splits admits bound env).both forgets).mono (fun _ _ => And.left)
      fun _ _ => And.right

end KeyScheme

section

variable (held : rules.HeldBy scheme Failure.Aborts) (sound : map.Sound rules)
include held sound

theorem Map.extend_whole (pairs : List (K × V)) :
    Leads (extend scheme pairs) (map, env) fun s => s.1.Sound rules := by
  induction pairs generalizing map env with
  | nil => exact sound
  | cons pair pairs ih =>
    change Leads (do discard (insert scheme pair.1 pair.2); extend scheme pairs) _ _
    unfold Leads insert
    rw [ends_bind, ends_discard]
    have inserted : Leads (insert? scheme pair.1 pair.2) (map, env) fun s => s.1.Sound rules :=
      (insert?_ends_of_held held sound pair.2 env).mono (fun _ _ written => written.sound)
        fun _ _ spared calm => (spared calm).1.sound
    exact Ends.mono inserted.orAbort (fun _ _ sound' => ih sound') fun _ _ h => h

/-- Calls that do not abort leave a map whole, whatever it is held to. -/
theorem Call.attempt_whole (call : Call K V ρ) :
    Leads (call.attempt scheme) ((map, env), own) fun s => s.1.1.Sound rules := by
  have reads {α : Type} {act : Map K V → Action (KeyEnv δ) α} {answer : α → Answer K V} :
      Leads (first do return answer (← Map.onKeys (act (← Map.read)))) ((map, env), own)
        fun s => s.1.1.Sound rules :=
    ends_reading.mpr (ends_run.mono (fun _ _ _ => sound) fun _ _ _ _ => sound)
  have removes (key : K) : Leads (Map.removePair? scheme key) (map, env) fun s => s.1.Sound rules :=
    (Map.removePair?_ends_of_held held sound env.grants env).mono (fun _ _ h => h.1)
      fun _ _ spared calm => (spared calm).1.sound
  cases call with
  | insert key value =>
    exact leads_map.mpr (ends_first.mpr ((Map.insert?_ends_of_held held sound value env).mono
      (fun _ _ written => written.sound) fun _ _ spared calm => (spared calm).1.sound))
  | getOrInsert key default f =>
    refine leads_map.mpr ((Map.getOrInsert?_ends_of_held held sound _ f env).mono ?_
      fun _ _ spared calm => (spared calm).1.sound)
    rintro answer s (⟨old, _, _, written⟩ | ⟨value, _, _, _, written⟩)
    · exact written.sound
    · exact written.sound
  | get key =>
    unfold attempt
    exact reads
  | getPair key =>
    unfold attempt
    exact reads
  | contains key =>
    unfold attempt
    exact reads
  | adjust key f =>
    refine leads_map.mpr (ends_first.mpr ((Map.adjust_ends sound f env.grants env).mono
      (fun _ _ h => h.1) fun _ s h _ => ?_))
    exact h.1 ▸ sound
  | remove key => exact leads_map.mpr (ends_first.mpr (leads_map.mpr (removes key)))
  | removePair key => exact leads_map.mpr (ends_first.mpr (removes key))
  | extend pairs => exact leads_map.mpr (ends_first.mpr (Map.extend_whole held sound pairs))
  | clear =>
    exact leads_map.mpr (ends_first.mpr ((Map.clear_yields sound env).ends fun _ _ h => h.1))
  | retain f =>
    refine leads_map.mpr ((Map.retain_ends_of_held held sound (calmly f) env).mono
      (fun _ _ h => h.1) fun failure s stopped calm => ?_)
    obtain ⟨_, _, _, _, text, _, _, rfl, _⟩ := stopped calm
    exact absurd ⟨_, rfl⟩ calm
  | sweep writes =>
    unfold attempt Leads
    rw [ends_first, ends_bind]
    refine (Sweep.ofMap_ends_of_held held sound.table sound.free env).mono ?_
      fun _ _ aborts calm => absurd aborts calm
    rintro sweep ⟨between, env'⟩ ⟨free, id, steady, order, all, under⟩
    rw [ends_bind]
    apply (Sweep.through_yields writes under).ends
    rintro ⟨pairs, sweep'⟩ ⟨map', env''⟩ ⟨rfl, under', passes⟩
    refine ⟨under'.sound, fun small => ⟨under'.idle, ?_⟩, passes.latch ▸ free⟩
    have exponent := passes.exponent.trans steady.exponent
    rw [exponent] at small
    rw [exponent, passes.count, steady.count]
    exact (sound.snug small).2
  | list =>
    unfold attempt
    exact reads
  | len => exact sound

end

theorem Reachable.whole (held : rules.HeldBy scheme Failure.Aborts)
    (reachable : Reachable scheme map) : map.Sound rules := by
  induction reachable with
  | made origin env run => exact ((origin.make?_ends rules env).of_ok run).sound
  | called call _ run calm ih => exact (call.attempt_whole held ih).after run calm

namespace Request

/-- Requests about one key. -/
def single : Request K V ρ → Bool
  | .plain (.insert _ _) | .plain (.getOrInsert _ _ _) | .plain (.get _) | .plain (.getPair _)
  | .plain (.contains _) | .plain (.adjust _ _) | .plain (.remove _) | .plain (.removePair _)
  | .getOrInsert _ _ _ => true
  | _ => false

/-- A request that fails has changed no entry, unless a stored key was not hashed again. -/
theorem spares (held : rules.HeldBy scheme stalls) (sound : map.Sound rules)
    (request : Request K V ρ) (single : request.single = true) :
    Ends (request.attempt scheme) ((map, env), own) (fun _ _ => True)
      fun failure s => ¬ stalls failure → Map.Spared rules map s.1.1 := by
  have adds (key : K) (default : StateM ρ (Except String V)) (f : V → V) :
      Ends (Map.getOrInsert? scheme key default f) ((map, env), own) (fun _ _ => True)
        fun failure s => ¬ stalls failure → Map.Spared rules map s.1.1 :=
    (Map.getOrInsert?_ends_of_held held sound default f env).mono (fun _ _ _ => trivial)
      fun _ _ spared calm => (spared calm).1
  have removes (key : K) : Ends (Map.removePair? scheme key) (map, env) (fun _ _ => True)
      fun failure s => ¬ stalls failure → Map.Spared rules map s.1 :=
    (Map.removePair?_ends_of_held held sound env.grants env).mono (fun _ _ _ => trivial)
      fun _ _ spared calm => (spared calm).1
  have reads {α : Type} {act : Map K V → Action (KeyEnv δ) α} {answer : α → Answer K V} :
      Ends (first do return answer (← Map.onKeys (act (← Map.read)))) ((map, env), own)
        (fun _ _ => True) fun failure s => ¬ stalls failure → Map.Spared rules map s.1.1 :=
    Call.ends_reading.mpr (ends_run.mono (fun _ _ _ => trivial) fun _ _ _ _ => .refl sound)
  cases request with
  | retain => cases single
  | getOrInsert key default f => exact ends_map.mpr (adds key default f)
  | plain call =>
    cases call with
    | insert key value =>
      exact ends_map.mpr (ends_first.mpr ((Map.insert?_ends_of_held held sound value env).mono
        (fun _ _ _ => trivial) fun _ _ spared calm => (spared calm).1))
    | getOrInsert key default f => exact ends_map.mpr (adds key _ f)
    | get key =>
      unfold attempt Call.attempt
      exact reads
    | getPair key =>
      unfold attempt Call.attempt
      exact reads
    | contains key =>
      unfold attempt Call.attempt
      exact reads
    | adjust key f =>
      refine ends_map.mpr (ends_first.mpr ((Map.adjust_ends sound f env.grants env).mono
        (fun _ _ _ => trivial) fun _ s h _ => ?_))
      rw [h.1]
      exact .refl sound
    | remove key =>
      refine ends_map.mpr (ends_first.mpr ?_)
      exact ends_map.mpr (removes key)
    | removePair key => exact ends_map.mpr (ends_first.mpr (removes key))
    | extend => cases single
    | clear => cases single
    | retain => cases single
    | sweep => cases single
    | list => cases single
    | len => cases single

end Request

namespace Action

/-- A raise is no fault that could be handled. -/
theorem orAbort_raised {σ α : Type} {act : Action σ α} {s after : σ} {text : String} :
    act.orAbort s = (.error (.abort (.raised text)), after) ↔
      act s = (.error (.abort (.raised text)), after) := by
  unfold orAbort
  rw [adapt_apply]
  rcases act s with ⟨(met | cause) | a, _⟩
  · exact ⟨nofun, nofun⟩
  · rfl
  · rfl

end Action

/-- A callback raises in the request. A caller that handles no faults sees the same. -/
def Request.Raises (scheme : KeyScheme K δ) (request : Request K V ρ) (text : String)
    (before after : (Map K V × Env δ) × ρ) : Prop :=
  (request.attempt scheme).orAbort before = (.error (.abort (.raised text)), after)

namespace Map

/-- A map that is after a raise as good as it was before. -/
structure Regained (scheme : KeyScheme K δ) (reading : Reading K) (before after : Map K V) :
    Prop where
  entries : after.table.entries.Perm before.table.entries
  count : after.table.count = before.table.count
  seed : after.table.seed = before.table.seed
  exponent_le : before.table.exponent ≤ after.table.exponent
  id : after.id = before.id
  free : after.latch.held = false
  upright : after.table.Upright
  filed : after.table.Filed reading
  /-- Once nothing raises, calls are answered from the entries that were there before. -/
  serves : ∀ {calm : KeyEnv δ → Prop}, scheme.Calms reading calm → ∀ {ρ : Type}
    (calls : List (Call K V ρ)) (env : Env δ) (own : ρ), calm env.keys →
    Ends (Call.askAll scheme calls) ((after, env), own)
      (fun outcomes s => ∃ entries,
        (dictionary reading scheme.traits.replacesKey).Serves reading env.grants calls
          (before.table.entries, own) outcomes (entries, s.2) ∧
        s.1.1.table.entries.Perm entries ∧ Distinct reading entries)
      (fun failure _ => ∃ call ∈ calls, ∃ met, call.Hindered reading env.grants met ∧
        failure = met.unhandled)

/-- No raise costs the map anything. -/
def SparedByRaises (scheme : KeyScheme K δ) (reading : Reading K) (map : Map K V) : Prop :=
  ∀ {ρ : Type} (request : Request K V ρ) (text : String) (env : Env δ) (own : ρ)
    (s : (Map K V × Env δ) × ρ), request.single = true →
    request.Raises scheme text ((map, env), own) s → Regained scheme reading map s.1.1

theorem Spared.regained {after : Map K V} (brittle : scheme.Brittle reading)
    (kept : map.table.Kept reading) (arises : Arises scheme after)
    (sound : after.table.Sound Rules.any) (spared : Spared (reading.rules True) map after) :
    Regained scheme reading map after where
  entries := spared.regrown.entries
  count := spared.regrown.count
  seed := spared.regrown.seed
  exponent_le := spared.regrown.exponent_le
  id := spared.id
  free := spared.sound.free
  upright := sound.upright arises.tiled
  filed := spared.sound.table.filed brittle.coherent
    (kept.distinct.perm brittle.coherent spared.regrown.entries.symm)
  serves calms _ calls env own quiet := by
    have lawful := dictionary_lawful (V := V) brittle.coherent scheme.traits.replacesKey
    refine (Call.askAll_ends brittle.coherent (brittle.agrees.reflexive brittle.reflexive)
      calms lawful calls quiet rfl spared.sound
      ⟨spared.regrown.entries.symm, kept.distinct.perm brittle.coherent
        spared.regrown.entries.symm⟩).mono ?_ fun _ _ h => h
    rintro outcomes s ⟨entries, serves, all, distinct⟩
    exact ⟨entries, serves, all.symm, distinct.perm brittle.coherent all.symm⟩

end Map

/-- A masked scheme is brittle where no key is NaN-like, and every bit that is hashed is compared. -/
theorem Key.masked_brittle {config : Key.Masked} (reflexive : config.traits.reflexive = true)
    (plain : config.nanLike = 0) (within : config.hashed &&& config.compared = config.hashed) :
    config.scheme.Brittle (Key.maskedReading config) where
  agrees := Key.masked_agrees fun _ => plain
  coherent := Key.masked_coherent within
  reflexive := reflexive
  hashes key seed env text := by
    rw [Key.masked_hash (by rw [plain, UInt64.and_zero])]
    exact nofun

/-- Wherever in a request a comparison raises, or a default. -/
theorem raises_spare_map (brittle : scheme.Brittle reading) (reachable : Reachable scheme map) :
    map.SparedByRaises scheme reading := by
  intro ρ request text env own s single raises
  have run := orAbort_raised.mp raises
  have recalls : ¬ (Failure.abort (.raised text)).Forgets := by
    rintro ⟨_, ⟨⟩⟩
  have spared {rules : Rules K} (held : rules.HeldBy scheme Failure.Aborts) :
      Map.Spared rules map s.1.1 :=
    (request.spares (brittle.heldBy held) (reachable.whole held) single).failure run recalls
  have arises := Arises.asked request reachable.arises env own
  rw [run] at arises
  exact (spared (Reading.rules_heldBy brittle.agrees.places True)).regained brittle
    (reachable.kept brittle.agrees brittle.coherent) arises
    (spared (Rules.any_heldBy scheme)).sound.table

/-- Amid a doubling a comparison raises, and so does a default. There are calm surroundings too. -/
theorem raises_spare_map_amid_doubling : ∃ map : Map UInt64 Nat,
    map.table.resize.isSome = true ∧ map.table.count = 27 ∧
    (Map.insert? (Key.Masked.scheme {}) 0 5
      (map, { Env.lenient {} with keys := ⟨{}, { trap := some 0 }⟩ })).1 =
      .error (.abort (.raised "trap")) ∧
    (Map.getOrInsert? (Key.Masked.scheme {}) 27 (pure (.error "no value")) id
      ((map, .lenient {}), ())).1 = .error (.abort (.raised "no value")) ∧
    ((Key.Masked.scheme {}).Calms (Key.maskedReading {}) fun env =>
      env.own.trap = none ∧ env.own.refuse = 0) ∧
    map.SparedByRaises (Key.Masked.scheme {}) (Key.maskedReading {}) := by
  have made : Reachable (V := Nat) (Key.Masked.scheme {}) _ := .made .empty (.lenient {}) rfl
  obtain ⟨map, grown, growing, count, trapped, missing⟩ : ∃ map : Map UInt64 Nat,
      Reachable (Key.Masked.scheme {}) map ∧ map.table.resize.isSome = true ∧
      map.table.count = 27 ∧
      (Map.insert? (Key.Masked.scheme {}) 0 5
        (map, { Env.lenient {} with keys := ⟨{}, { trap := some 0 }⟩ })).1 =
        .error (.abort (.raised "trap")) ∧
      (Map.getOrInsert? (Key.Masked.scheme {}) 27 (pure (.error "no value")) id
        ((map, .lenient {}), ())).1 = .error (.abort (.raised "no value")) :=
    ⟨_, made.after (.extend ((List.range 27).map fun n => (n.toUInt64, n))) (.lenient {}) ()
      (by decide +kernel), by decide +kernel⟩
  exact ⟨map, growing, count, trapped, missing, Key.masked_calms rfl,
    raises_spare_map (Key.masked_brittle rfl rfl rfl) grown⟩

end GradualMap
