import GradualMap.Proofs.Internal
import GradualMap.Proofs.Request

/-!
A scheme that gives up on nothing, and that refuses no key it has stored, may be as lawless as it
likes: no request, walk or cursor fails for a reason inside the table. What is kept for this is the
shape of the table alone, which says nothing about where keys are.
-/

namespace GradualMap

open GradualMap.Action

variable {K V δ ρ α : Type} {scheme : KeyScheme K δ}

/-- The scheme answers whatever it is asked, a refusal being an answer. -/
structure KeyScheme.Unfailing (scheme : KeyScheme K δ) : Prop where
  hash : ∀ key seed env, ∃ answer, (scheme.hash key seed env).1 = .ok answer
  equal : ∀ a b env, ∃ answer, (scheme.equal a b env).1 = .ok answer

namespace KeyScheme.Unfailing

theorem rehash_ends (unfailing : scheme.Unfailing) (key : K) (seed : UInt64) (env : KeyEnv δ) :
    Ends (scheme.rehash key seed) env (fun _ _ => True)
      (fun failure _ => failure.StoredKeyRefused) := by
  obtain ⟨answer, answered⟩ := unfailing.hash key seed env
  unfold rehash
  rw [ends_bind]
  apply (KeyM.yields_toAction answered).ends
  rintro (refusal | hash) env _
  · exact ⟨refusal, rfl⟩
  · trivial

theorem selfEqual_yields (unfailing : scheme.Unfailing) (key : K) (env : KeyEnv δ) :
    Yields (scheme.selfEqual key) env fun _ _ => True := by
  obtain ⟨answer, answered⟩ := unfailing.equal key key env
  unfold selfEqual
  split
  · trivial
  · exact (KeyM.yields_toAction answered).mono fun _ _ _ => trivial

end KeyScheme.Unfailing

/-- The shape of a table alone: any key may be anywhere, and a chain may end in slots that are not
known to be its last. -/
def Rules.slack : Rules K :=
  Rules.any.loose

theorem Rules.slack_heldBy (unfailing : scheme.Unfailing) :
    Rules.slack.HeldBy scheme Failure.StoredKeyRefused where
  enters _ _ := trivial
  splits _ _ env := by
    unfold Routing.route
    simp only [Bool.false_eq_true, if_false, ends_bind]
    refine (unfailing.rehash_ends _ _ env).mono (fun again env _ => ?_) fun _ _ => id
    refine (unfailing.selfEqual_yields _ env).ends fun self env _ => ?_
    cases self <;> trivial

theorem KeyScheme.Fails.not_internal {grants : Nat → Bool} {key : K} {failure : Failure}
    (fails : scheme.Fails grants key failure) : ¬ failure.Internal := by
  rcases fails with ⟨seed, declines⟩ | balks | ⟨exponent, rfl, _⟩
  · exact declines.not_internal
  · exact balks.not_internal
  · exact id

theorem KeyScheme.Breaks.not_internal {grants : Nat → Bool} {failure : Failure}
    (breaks : scheme.Breaks grants failure) : ¬ failure.Internal := by
  rcases breaks with balks | ⟨exponent, rfl, _⟩
  · exact balks.not_internal
  · exact fun internal => internal

theorem Failure.StoredKeyRefused.not_internal {failure : Failure}
    (refused : failure.StoredKeyRefused) : ¬ failure.Internal := by
  obtain ⟨refusal, rfl⟩ := refused
  exact id

theorem Failure.not_internal_unhandled {failure : Failure} (outer : ¬ failure.Internal) :
    ¬ failure.unhandled.Internal := by
  cases failure with
  | fault met => exact id
  | abort cause => exact outer

namespace Action

variable {σ β : Type} {sound : σ → Prop} {act : Action σ α} {s : σ}

/-- The operation keeps the state sound, or fails for a reason outside of it; only a stored key that
is refused may then have left it otherwise. -/
abbrev Withstands (sound : σ → Prop) (act : Action σ α) (s : σ) : Prop :=
  act.Ends s (fun _ s => sound s) fun failure s =>
    ¬ failure.Internal ∧ (¬ failure.StoredKeyRefused → sound s)

/-- A failure that leaves the state sound, unless a stored key was refused. -/
theorem withstands_of_ends {post : α → σ → Prop} {fails : Failure → σ → Prop}
    (ends : act.Ends s post fun failure s => ¬ failure.StoredKeyRefused → fails failure s)
    (answers : ∀ a s, post a s → sound s)
    (failures : ∀ failure s, fails failure s → ¬ failure.Internal ∧ sound s) :
    act.Withstands sound s := by
  refine ends.mono answers fun failure s failed => ?_
  by_cases refused : failure.StoredKeyRefused
  · exact ⟨refused.not_internal, fun calm => absurd refused calm⟩
  · exact ⟨(failures failure s (failed refused)).1, fun _ => (failures failure s (failed refused)).2⟩

theorem Withstands.bind {f : α → Action σ β} (withstands : act.Withstands sound s)
    (later : ∀ a s, sound s → (f a).Withstands sound s) : Withstands sound (act >>= f) s :=
  ends_bind.mpr (withstands.mono later fun _ _ => id)

theorem Withstands.map {f : α → β} (withstands : act.Withstands sound s) :
    Withstands sound (f <$> act) s :=
  ends_map.mpr withstands

theorem Withstands.orAbort (withstands : act.Withstands sound s) :
    act.orAbort.Withstands sound s := by
  refine ends_orAbort.mpr (withstands.mono (fun _ _ => id) fun failure s failed => ?_)
  refine ⟨Failure.not_internal_unhandled failed.1, fun calm => failed.2 ?_⟩
  rintro ⟨refusal, rfl⟩
  exact calm ⟨refusal, rfl⟩

end Action

namespace Map

variable {map : Map K V} {key : K} (unfailing : scheme.Unfailing) (sound : map.Sound .slack)
  (env : Env δ)

/-- A map in shape, whatever it is worked on with. -/
abbrev InShape (s : Map K V × Env δ) : Prop :=
  s.1.Sound .slack

include unfailing sound

theorem insert?_withstands (value : V) :
    (insert? scheme key value).Withstands InShape (map, env) :=
  withstands_of_ends (insert?_ends_of_held (Rules.slack_heldBy unfailing) sound value env)
    (fun _ _ written => written.sound) fun _ _ failed => ⟨failed.2.not_internal, failed.1.sound⟩

theorem getOrInsert?_withstands (default : StateM ρ (Except String V)) (f : V → V) (own : ρ) :
    (getOrInsert? scheme key default f).Withstands (fun s => InShape s.1) ((map, env), own) := by
  refine withstands_of_ends
    (getOrInsert?_ends_of_held (Rules.slack_heldBy unfailing) sound default f env) ?_ ?_
  · rintro answer s (⟨_, _, _, written⟩ | ⟨_, _, _, _, written⟩)
    · exact written.sound
    · exact written.sound
  · rintro failure s ⟨spared, ⟨_, fails⟩ | ⟨text, _, _, rfl⟩⟩
    · exact ⟨fails.not_internal, spared.sound⟩
    · exact ⟨fun internal => internal, spared.sound⟩

theorem removePair?_withstands :
    (removePair? scheme key).Withstands InShape (map, env) :=
  withstands_of_ends
    (removePair?_ends_of_held (Rules.slack_heldBy unfailing) sound env.grants env)
    (fun _ _ removed => removed.1) fun _ _ failed => ⟨failed.2.not_internal, failed.1.sound⟩

theorem retain_withstands (f : K → V → StateM ρ (V × Except String Bool)) (own : ρ) :
    (retain scheme f).Withstands (fun s => InShape s.1) ((map, env), own) := by
  refine withstands_of_ends (retain_ends_of_held (Rules.slack_heldBy unfailing) sound f env)
    (fun _ _ retained => retained.1) ?_
  rintro failure s ⟨sound', _, _, _, _, _, _, rfl, _⟩
  exact ⟨fun internal => internal, sound'⟩

omit sound in
theorem extend_withstands (pairs : List (K × V)) : ∀ {map : Map K V} {env : Env δ},
    map.Sound .slack → (extend scheme pairs).Withstands InShape (map, env) := by
  induction pairs with
  | nil => exact fun sound => sound
  | cons pair pairs ih =>
    intro map env sound
    exact ((insert?_withstands unfailing sound env pair.2).orAbort.map (f := fun _ => ())).bind
      fun _ s sound' => ih sound'

theorem sweep_withstands (writes : List (V → V)) :
    Withstands InShape (do
      let sweep ← Sweep.ofMap scheme
      return Answer.pairs (← sweep.through writes).1) (map, env) := by
  rw [Withstands, ends_bind]
  refine (Sweep.ofMap_ends_of_held (Rules.slack_heldBy unfailing) sound.table sound.free env).mono
    ?_ fun failure s refused => ⟨refused.not_internal, fun calm => absurd refused calm⟩
  rintro sweep ⟨between, env'⟩ ⟨free, _, steady, order, _, under⟩
  rw [ends_bind]
  refine (Sweep.through_yields writes under).ends ?_
  rintro ⟨pairs, sweep'⟩ s ⟨_, under', passes⟩
  have exponent := passes.exponent.trans steady.exponent
  refine ⟨under'.sound, fun small => ⟨under'.idle, ?_⟩, passes.latch ▸ free⟩
  rw [exponent] at small
  rw [exponent, passes.count, steady.count]
  exact (sound.snug small).2

omit unfailing in
theorem adjust_withstands (f : V → V) : (adjust scheme key f).Withstands InShape (map, env) := by
  refine (adjust_ends sound f env.grants env).mono (fun _ _ adjusted => adjusted.1) ?_
  rintro failure s ⟨same, met, fails, rfl⟩
  refine ⟨Failure.not_internal_unhandled fails.not_internal, fun _ => ?_⟩
  rw [InShape, same]
  exact sound

omit unfailing in
theorem safe_getPair? {keys : KeyEnv δ} :
    (map.getPair? scheme key).Safe keys fun _ _ => True :=
  (getPair?_ends sound keys).mono (fun _ _ _ => trivial)
    fun _ _ (fails : scheme.Fails (fun _ => true) key _) => fails.not_internal

omit unfailing in
theorem safe_contains? {keys : KeyEnv δ} :
    (map.contains? scheme key).Safe keys fun _ _ => True :=
  ends_bind.mpr <| (position?_ends sound keys).mono (fun _ _ _ => trivial)
    fun _ _ (fails : scheme.Fails (fun _ => true) key _) => fails.not_internal

end Map

namespace Call

variable {map : Map K V}

/-- The maps that calls are made on, next to a state of the caller's own. -/
abbrev InShape (s : (Map K V × Env δ) × ρ) : Prop :=
  Map.InShape s.1

theorem first_withstands {act : MapAction K V δ α} {env : Env δ} {own : ρ}
    (withstands : act.Withstands Map.InShape (map, env)) :
    act.first.Withstands InShape ((map, env), own) :=
  ends_first.mpr withstands

/-- A call that reads leaves the map in shape. -/
theorem reading_withstands (f : Map K V → Action (KeyEnv δ) α) (answer : α → Answer K V)
    (sound : map.Sound .slack) {env : Env δ} {own : ρ}
    (safe : (f map).Safe env.keys fun _ _ => True) :
    Withstands InShape (first do return answer (← Map.onKeys (f (← Map.read))))
      ((map, env), own) :=
  ends_reading.mpr (Ends.mono safe (fun _ _ _ => sound) fun _ _ outer => ⟨outer, fun _ => sound⟩)

/-- Every call keeps the shape of a map, or breaks off at a stored key that is refused. -/
theorem attempt_withstands (unfailing : scheme.Unfailing) (sound : map.Sound .slack)
    (call : Call K V ρ) (env : Env δ) (own : ρ) :
    (call.attempt scheme).Withstands InShape ((map, env), own) := by
  cases call with
  | insert key value =>
    exact (first_withstands (Map.insert?_withstands unfailing sound env value)).map
  | getOrInsert key default f =>
    exact (Map.getOrInsert?_withstands unfailing sound env _ f own).map
  | get key =>
    exact reading_withstands (·.get? scheme key) .value? sound
      (ends_map.mpr (Map.safe_getPair? sound))
  | getPair key =>
    exact reading_withstands (·.getPair? scheme key) .pair? sound (Map.safe_getPair? sound)
  | contains key =>
    exact reading_withstands (·.contains? scheme key) .holds sound (Map.safe_contains? sound)
  | adjust key f => exact (first_withstands (Map.adjust_withstands sound env f)).map
  | remove key =>
    exact (first_withstands (Map.removePair?_withstands unfailing sound env).map).map
  | removePair key =>
    exact (first_withstands (Map.removePair?_withstands unfailing sound env)).map
  | extend pairs => exact (first_withstands (Map.extend_withstands unfailing pairs sound)).map
  | clear =>
    exact (first_withstands ((Map.clear_yields sound env).ends fun _ _ cleared => cleared.1)).map
  | retain f => exact (Map.retain_withstands unfailing sound env _ own).map
  | sweep writes =>
    exact first_withstands (Map.sweep_withstands unfailing sound env writes)
  | list => exact reading_withstands (·.toList scheme) .pairs sound (Map.safe_toList sound.table)
  | len => exact sound

end Call

theorem Request.attempt_withstands (unfailing : scheme.Unfailing) {map : Map K V}
    (sound : map.Sound .slack) (request : Request K V ρ) (env : Env δ) (own : ρ) :
    (request.attempt scheme).Withstands Call.InShape ((map, env), own) := by
  cases request with
  | plain call => exact call.attempt_withstands unfailing sound env own
  | getOrInsert key default f =>
    exact (Map.getOrInsert?_withstands unfailing sound env default f own).map
  | retain f => exact (Map.retain_withstands unfailing sound env f own).map

/-- The maps that requests lead to while no stored key is refused. A request that a closure ended by
raising counts, and so does one that was answered by a fault. -/
inductive Served (scheme : KeyScheme K δ) : Map K V → Prop
  | made {map : Map K V} (origin : Origin) (env : Env δ) (run : (origin.make? env).1 = .ok map) :
      Served scheme map
  | asked {before : Map K V} {ρ : Type} (request : Request K V ρ) (served : Served scheme before)
      (env : Env δ) (own : ρ)
      (hashed : ∀ failure, (request.attempt scheme ((before, env), own)).1 = .error failure →
        ¬ failure.StoredKeyRefused) :
      Served scheme (request.attempt scheme ((before, env), own)).2.1.1

theorem Served.sound (unfailing : scheme.Unfailing) {map : Map K V} (served : Served scheme map) :
    map.Sound .slack := by
  induction served with
  | made origin env run => exact ((origin.make?_ends _ env).of_ok run).sound
  | asked request _ env own hashed ih =>
    have withstands := request.attempt_withstands unfailing ih env own
    cases run : (request.attempt scheme ((_, env), own)).1 with
    | ok answer => exact withstands.of_ok run
    | error failure => exact (withstands.of_error run).2 (hashed failure run)

/-- The slot of a claim is there to be written. -/
def Claim.Within (table : Table K V) : Claim → Prop
  | .occupied pos => ∃ entry, table.entryAt pos = .ok entry
  | .vacant index offset =>
    index < table.current.size ∧ offset < (table.current.chainAt index).slots.length

theorem claim_within (unfailing : scheme.Unfailing) {map : Map K V} (sound : map.Sound .slack)
    (key : K) (hash : UInt64) (env : Env δ) :
    Ends (Table.claim scheme key hash) (map.table, env) (fun claim s => claim.Within s.1)
      fun failure _ => ¬ failure.Internal := by
  refine (Table.claim_ends_of_held (Rules.slack_heldBy unfailing) sound.table sound.snug env).mono
    ?_ fun failure s broken => ?_
  · rintro (pos | ⟨index, offset⟩) s claimed
    · obtain ⟨_, _, entry, holds, _⟩ := claimed.granted
      exact ⟨entry, holds.entryAt⟩
    · obtain ⟨_, bound, _, first, _⟩ := claimed.granted
      exact ⟨bound, (List.findIdx?_eq_some_iff_getElem.mp first).1⟩
  · by_cases refused : failure.StoredKeyRefused
    · exact refused.not_internal
    · exact (broken refused).breaks.not_internal

/-- Nothing that is asked of the map fails for a reason inside its table. -/
structure Map.Unbroken (scheme : KeyScheme K δ) (map : Map K V) : Prop where
  request : ∀ {ρ : Type} (request : Request K V ρ) (env : Env δ) (own : ρ) (failure : Failure),
    (request.attempt scheme ((map, env), own)).1 = .error failure → ¬ failure.Internal
  walk : ∀ {walk : Walk K V}, Walk.Over scheme map walk → ∀ (env : KeyEnv δ) (failure : Failure),
    (walk.next scheme map env).1 = .error failure → ¬ failure.Internal
  cursor : ∀ (cursor : Cursor K V) (env : KeyEnv δ) (failure : Failure),
    (Cursor.next scheme map (cursor, env)).1 = .error failure → ¬ failure.Internal
  /-- What a write is told to write is there. -/
  claim : ∀ (key : K) (hash : UInt64) (env : Env δ),
    Ends (Table.claim scheme key hash) (map.table, env) (fun claim s => claim.Within s.1)
      fun failure _ => ¬ failure.Internal
  /-- What a resize moves is all there after it. -/
  growWork : ∀ (index : Nat) (env : Env δ),
    Ends (Table.growWork scheme index) (map.table, env)
      (fun _ s => s.1.entries.Perm map.table.entries) fun failure _ => ¬ failure.Internal
  exponent_lt : map.table.exponent < exponentLimit

theorem Served.unbroken (unfailing : scheme.Unfailing) {map : Map K V}
    (served : Served scheme map) : map.Unbroken scheme := by
  have sound := served.sound unfailing
  refine ⟨fun request env own failure run => ?_, fun stage env failure run => ?_,
    fun cursor env failure run => ?_, fun key hash env => ?_, fun index env => ?_, ?_⟩
  · exact ((request.attempt_withstands unfailing sound env own).of_error run).1
  · exact (Walk.safe_next sound.table (stage.fits sound.table)).of_error run
  · exact (Cursor.safe_next sound.table (cursor, env)).of_error run
  · exact claim_within unfailing sound key hash env
  · refine (Table.growWork_readies (Rules.slack_heldBy unfailing) sound.table index env).mono ?_
      fun failure _ refused => refused.not_internal
    rintro _ s ⟨_, steady, _⟩
    exact steady.entries
  · rcases sound.table.allocated with ⟨_, least, _⟩ | ⟨_, below⟩
    · rw [least]
      decide
    · exact below

/-- However keys are hashed and compared, and whatever capacity is asked for. -/
theorem no_internal_failure (unfailing : scheme.Unfailing) :
    (∀ capacity : UInt64, exponentFor capacity.toNat < 64) ∧
    (∀ (origin : Origin) (env : Env δ) (failure : Failure),
      (origin.make? (K := K) (V := V) env).1 = .error failure → ¬ failure.Internal) ∧
    ∀ map : Map K V, Served scheme map → map.Unbroken scheme := by
  refine ⟨exponentFor_lt, fun origin env failure run => ?_, fun map served =>
    served.unbroken unfailing⟩
  obtain ⟨exponent, rfl, _⟩ := (origin.make?_ends .slack env).of_error run
  exact fun internal => internal

/-- Floats never fail to hash or to compare, lawless as a NaN may be. -/
theorem Key.floating_unfailing (format : FloatFormat) (hasher : Hasher) :
    (Key.floating format hasher).Unfailing where
  hash key seed env := by
    by_cases nan : key.isNaN = true
    · exact ⟨_, by simp [Key.floating, nan]; rfl⟩
    · by_cases zero : key.isZero = true
      · exact ⟨_, by simp [Key.floating, nan, zero]; rfl⟩
      · exact ⟨_, by simp [Key.floating, nan, zero]; rfl⟩
  equal _ _ _ := ⟨_, rfl⟩

/-- Half of the keys are NaNs when a default raises amid a doubling. -/
theorem no_internal_failure_among_nans : ∃ map : Map (Floating .binary32) Nat,
    Served (Key.floating .binary32 {}) map ∧ map.table.resize.isSome = true ∧
    map.table.count = 27 ∧ map.Unbroken (Key.floating .binary32 {}) := by
  let nan : Floating .binary32 := ⟨0x7fc00000⟩
  let pairs := (List.range 27).map fun n =>
    (if n % 2 = 0 then nan else .ofNat .binary32 n, n)
  let fill : Request (Floating .binary32) Nat Unit := .plain (.extend pairs)
  let raise : Request (Floating .binary32) Nat Unit :=
    .getOrInsert nan (pure (.error "no value")) id
  have made : Served (V := Nat) (Key.floating .binary32 {}) _ := .made .empty (.ample {}) rfl
  obtain ⟨map, served, facts⟩ : ∃ map : Map (Floating .binary32) Nat,
      Served (Key.floating .binary32 {}) map ∧ map.table.resize.isSome = true ∧
      map.table.count = 27 := by
    refine ⟨_, .asked raise (.asked fill made (.ample {}) () fun failure run => ?_) (.ample {}) ()
      fun failure run => ?_, by decide +kernel⟩
    · cases run.symm.trans (show _ = Except.ok Answer.done by decide +kernel)
    · obtain rfl := Except.error.inj <| run.symm.trans
        (show _ = Except.error (.abort (.raised "no value")) by decide +kernel)
      rintro ⟨_, refused⟩
      cases refused
  exact ⟨map, served, facts.1, facts.2,
    (no_internal_failure (Key.floating_unfailing _ _)).2.2 map served⟩

end GradualMap
