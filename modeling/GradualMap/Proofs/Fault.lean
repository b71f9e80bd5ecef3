import GradualMap.Proofs.Census
import GradualMap.Proofs.Request
import GradualMap.Proofs.Resizing
import GradualMap.Proofs.Rest
import GradualMap.Proofs.Rounds
import GradualMap.Proofs.Seek

/-!
What a fault leaves behind. A refused key is refused before anything is done. Memory is denied to a
resize that would start, after the one in flight was taken to its end: the entries are moved then,
and that is all.
-/

namespace GradualMap

open GradualMap.Action

variable {K V δ ρ : Type}

namespace Action

variable {σ α : Type} {act : Action σ α} {s after : σ} {post : α → σ → Prop}
  {fails : Failure → σ → Prop} {failure : Failure}

/-- What is shown of the answer and of the failure of a run is shown of the run. -/
theorem ends_result {holds : Except Failure α × σ → Prop} :
    act.Ends s (fun a s => holds (.ok a, s)) (fun failure s => holds (.error failure, s)) ↔
      holds (act s) := by
  unfold Ends
  rcases act s with ⟨_ | _, _⟩ <;> rfl

theorem ends_of_run_ok {a : α} (run : act s = (.ok a, after)) :
    act.Ends s post fails ↔ post a after := by
  unfold Ends
  rw [run]

theorem ends_of_run_error (run : act s = (.error failure, after)) :
    act.Ends s post fails ↔ fails failure after := by
  unfold Ends
  rw [run]

end Action

namespace Table

variable {rules : Rules K} {scheme : KeyScheme K δ} {key : K} {hash : UInt64} {table : Table K V}
  {env : Env δ} {before after : Table K V × List Event}

/-- What the arrays of a table say of each other: its contents are accounted for, its chains are
linked as they should be, their tags tell where they end, and the books of a resize are in order. -/
structure Upright (table : Table K V) : Prop where
  tallied : table.Tallied
  wellLinked : table.WellLinked
  rests : ∀ chain ∈ table.current.chains, Row.RestExact chain.slots
  formerRests : ∀ resize, table.resize = some resize → ∀ chain ∈ resize.array.chains,
    chain.isEvacuated = false → Row.RestExact chain.slots
  bookkept : table.Bookkept

theorem Sound.upright (sound : table.Sound Rules.any) (tiled : table.Tiled) : table.Upright where
  tallied := sound.tallied
  wellLinked := tiled.wellLinked
  rests chain mem := by
    obtain ⟨i, bound, rfl⟩ := BucketArray.mem_chains.mp mem
    exact (sound.chains i bound).tidy.restExact
  formerRests resize growing chain mem waits := by
    obtain ⟨i, bound, rfl⟩ := BucketArray.mem_chains.mp mem
    exact (sound.waiting growing bound waits).sound.tidy.restExact
  bookkept := sound.bookkept

/-- A claim that memory was denied to. A resize in flight was taken to its end, and the table was
full even then. -/
structure Stopped (scheme : KeyScheme K δ) (before after : Table K V × List Event) : Prop where
  shifts : Shifts scheme before after
  idle : after.1.resize = none
  full : before.1.resize = none ∨ after.1.mustGrow = true

/-- There is nothing to shift without a resize. -/
theorem Shifts.eq_of_idle (shifts : Shifts scheme before after) (idle : before.1.resize = none) :
    after = before := by
  induction shifts with
  | refl => rfl
  | tail _ shift ih =>
    subst ih
    cases shift with
    | move growing => cases idle.symm.trans growing
    | advance growing => cases idle.symm.trans growing
    | finish growing => cases idle.symm.trans growing

theorem Stopped.refl (idle : before.1.resize = none) : Stopped scheme before before :=
  ⟨.refl, idle, .inl idle⟩

theorem Stopped.eq_of_idle (stopped : Stopped scheme before after) (idle : before.1.resize = none) :
    after = before :=
  stopped.shifts.eq_of_idle idle

theorem claimWithin_stops (sound : table.Sound Rules.any) (roomy : table.Uncrowded)
    (allocated : table.current.size ≠ 0) (rounds : Nat) :
    Ends (claimWithin scheme key hash (rounds + 2)) (table, env) (fun _ _ => True)
      (fun failure s => ¬ failure.Aborts → s.1.mustGrow = true ∧
        Shifts scheme (table, env.log) (s.1, s.2.log)) := by
  apply round_ends (Rules.any_heldBy scheme) sound allocated
  · exact growWork_stalls (Rules.any_heldBy scheme) sound _ _
      fun failure s aborts calm => absurd aborts calm
  · exact fun failure s _ balks calm => absurd balks.aborts calm
  · exact fun _ _ _ _ _ _ => trivial
  · intro s ready must _
    obtain ⟨sound', roomy', allocated'⟩ := ready.onward sound roomy allocated
    have idle := idle_of_mustGrow must
    rw [ends_bind]
    apply (startGrowth_ends sound' allocated' s.2).mono
    · -- With a resize started there is room, so the second round asks for no memory.
      rintro _ ⟨_, env'⟩ ⟨rfl, small, _⟩
      apply started_round_ends (Rules.any_heldBy scheme) trivial sound' roomy' allocated' idle small
      · exact fun failure s aborts calm => absurd aborts calm
      · exact fun failure s balks calm => absurd balks.aborts calm
      · exact fun _ _ _ _ _ _ => trivial
      · exact fun _ _ _ _ _ _ _ => trivial
    · rintro failure _ ⟨rfl, _⟩ _
      exact ⟨must, ready.worked.shifts⟩
  · exact fun _ _ _ _ _ _ _ => trivial

/-- A table without an array has nothing that it could be too full with. -/
theorem Estimated.calm_reserved (estimated : table.Estimated) (sound : table.Sound Rules.any)
    (bare : table.current.size = 0) : table.reserved.mustGrow = false := by
  have none : table.count = 0 := by
    by_contra filled
    exact sound.allocated_of_filled filled bare
  have overflow : table.overflowCount = 0 := by
    have le := estimated.gauged.le
    rw [estimated.bare bare] at le
    exact Nat.le_zero.mp le
  have pos := bucketCount_pos (min table.exponent 15)
  have room : overloaded 1 table.exponent = false := overloaded_eq_false.mpr (.inl (by decide))
  have packed : tooScattered 0 table.exponent = false := by
    simp only [tooScattered, decide_eq_false_iff_not]
    omega
  simp [mustGrow, reserved, none, overflow, room, packed]

theorem claim_stops (sound : table.Sound Rules.any) (estimated : table.Estimated) :
    Ends (claim scheme key hash) (table, env) (fun _ _ => True)
      (fun failure s => ¬ failure.Aborts → Stopped scheme (table, env.log) (s.1, s.2.log)) := by
  unfold claim
  rw [ends_bind]
  apply (reserve_ends sound env).mono
  · rintro _ ⟨_, env'⟩ ⟨log, ⟨allocated, rfl⟩ | ⟨bare, rfl⟩⟩
    · refine (claimWithin_stops sound estimated.roomy allocated exponentLimit).mono
        (fun _ _ h => h) fun failure s stops calm => ?_
      obtain ⟨must, shifts⟩ := stops calm
      exact ⟨log ▸ shifts, idle_of_mustGrow must, .inr must⟩
    · refine (claimWithin_stops (sound.reserved bare).1 estimated.roomy (allocated_reserved table)
        exponentLimit).mono (fun _ _ h => h) fun failure s stops calm => ?_
      obtain ⟨must, shifts⟩ := stops calm
      have same := shifts.eq_of_idle (sound.resize_eq_none bare)
      rw [(Prod.mk.inj same).1, estimated.calm_reserved sound bare] at must
      cases must
  · rintro failure _ ⟨rfl, idle, _⟩ _
    exact .refl idle

/-- Below `2 ^ 16` chains a doubling that has ended leaves the table neither full nor scattered, so
what was taken to its end before the next resize only packed the chains. -/
theorem Stopped.packs (stopped : Stopped scheme before after) (sound : before.1.Sound Rules.any)
    (estimated : before.1.Estimated) (small : before.1.exponent < 16) :
    ∀ resize, before.1.resize = some resize → resize.sameSize = true := by
  intro resize growing
  by_contra doubling
  obtain ⟨_, steady⟩ := stopped.shifts.sound (Rules.any_heldBy scheme) sound
  have must : after.1.mustGrow = true := stopped.full.resolve_left fun idle => by
    rw [growing] at idle
    cases idle
  have lt := (sound.resizing resize growing).cursor_lt
  obtain ⟨pos, size⟩ : 0 < before.1.exponent ∧
      resize.array.size = bucketCount (before.1.exponent - 1) := by
    have size := sound.former_size growing
    rwa [if_neg doubling] at size
  obtain ⟨smaller, exponent⟩ : ∃ smaller, before.1.exponent = smaller + 1 :=
    ⟨before.1.exponent - 1, by omega⟩
  have room := estimated.roomy
  have paid := Nat.le_trans steady.paid estimated.covered
  unfold Uncrowded at room
  rw [allowance_of_growing growing] at room
  rw [credit_of_growing growing] at paid
  simp only [Resize.allowance, Resize.credit, doubling, exponent, Nat.add_sub_cancel, size, ceiling,
    bucketSize, if_false] at room paid lt
  simp only [mustGrow, Bool.and_eq_true, Bool.or_eq_true, overloaded_eq_true, tooScattered,
    decide_eq_true_eq, steady.count, steady.exponent, exponent, bucketCount_succ] at must
  rw [Nat.min_eq_left (by omega : smaller + 1 ≤ 15), bucketCount_succ] at must
  omega

theorem Shifts.candidates_eq (sound : before.1.Sound Rules.any)
    (shifts : Shifts scheme before after)
    (packs : ∀ resize, before.1.resize = some resize → resize.sameSize = true) (hash : UInt64) :
    after.1.candidates hash = before.1.candidates hash ∧
      ∀ resize, after.1.resize = some resize → resize.sameSize = true := by
  induction shifts with
  | refl => exact ⟨rfl, packs⟩
  | tail shifts' shift ih =>
    obtain ⟨same, packs'⟩ := ih
    have sound' := (Shifts.sound shifts' (Rules.any_heldBy scheme) sound).1
    refine ⟨(shift.candidates_eq sound' packs' hash).trans same, ?_⟩
    cases shift with
    | move growing bound waits carried dealt =>
      obtain ⟨array, growing', _⟩ := dealt.vacated _ growing
      intro resize growing''
      cases growing'.symm.trans growing''
      have same := packs' _ growing
      exact same
    | advance growing =>
      rintro _ ⟨⟩
      have same := packs' _ growing
      exact same
    | finish => exact fun _ ended => by cases ended

theorem Shifts.begun (shifts : Shifts scheme before after) :
    after.2.countP Event.starts = before.2.countP Event.starts := by
  induction shifts with
  | refl => rfl
  | tail _ shift ih =>
    cases shift with
    | move => exact ih
    | advance => exact ih
    | finish => simpa [Event.starts] using ih

end Table

namespace Map

variable {scheme : KeyScheme K δ} {key : K} {map : Map K V} {env : Env δ} {own : ρ}

/-- A map as an insert has left it that memory was denied to. -/
structure Halted (scheme : KeyScheme K δ) (before after : Map K V × Env δ) : Prop where
  stopped : Table.Stopped scheme (before.1.table, before.2.log) (after.1.table, after.2.log)
  latch : after.1.latch = before.1.latch
  id : after.1.id = before.1.id

theorem latch_eq (free : map.latch.held = false) : map.latch.release = map.latch := by
  obtain ⟨_, ⟨held⟩, _⟩ := map
  cases free
  rfl

/-- A key that is not hashed is no lack of memory. -/
theorem declines_ne_noMemory {seed : UInt64} {failure : Failure}
    (declines : scheme.Declines key seed failure) (buckets : Nat) :
    failure ≠ .fault (.noMemory buckets) := by
  rintro rfl
  obtain ⟨refusal, refused⟩ := declines.refused (by rintro ⟨_, ⟨⟩⟩)
  cases refused

/-- Without a slot for it no default is asked for. -/
theorem getOrInsert?_of_unclaimed (free : map.latch.held = false) {hash : UInt64}
    {keys : KeyEnv δ} (hashed : scheme.hashKey key map.table.seed env.keys = (.ok hash, keys))
    {failure : Failure} {s : Table K V × Env δ}
    (unclaimed : Table.claim scheme key hash (map.table, { env with keys }) = (.error failure, s))
    (default : StateM ρ (Except String V)) (f : V → V) :
    getOrInsert? scheme key default f ((map, env), own) =
      (.error failure, ((({ map with table := s.1, latch := ⟨false⟩ } : Map K V), s.2), own)) := by
  symm
  apply ends_result.mp
  unfold getOrInsert?
  rw [ends_bind, ends_first, ends_read, ends_bind, ends_first, ends_onKeys, ends_of_run_ok hashed,
    ends_writingWith free, ends_bind, ends_first, ends_onTable, ends_of_run_error unclaimed]
  rfl

section

variable (sound : map.table.Sound Rules.any) (free : map.latch.held = false)
  (estimated : map.table.Estimated)
include sound free estimated

theorem insert?_halts (value : V) :
    Ends (insert? scheme key value) (map, env) (fun _ _ => True)
      (fun failure s => ∀ buckets, failure = .fault (.noMemory buckets) →
        Halted scheme (map, env) s) := by
  unfold insert?
  rw [ends_bind, ends_read, ends_bind, ends_onKeys]
  refine KeyScheme.hashKey_ends.mono ?_ fun _ _ declines buckets denied =>
    absurd denied (declines_ne_noMemory declines buckets)
  intro hash keys hashes
  rw [ends_writing free, ends_onTable, ends_bind]
  refine ((Table.claim_offers sound).both (Table.claim_stops sound estimated)).mono ?_ ?_
  · rintro (pos | ⟨index, offset⟩) s ⟨offered, _⟩
    · obtain ⟨_, _, holds, _⟩ := offered.overwritten hashes fun _ => value
      simp only
      rw [ends_bind]
      exact (Table.ends_updateEntry holds _).mpr trivial
    · simp only
      rw [ends_bind, Table.ends_fill]
      trivial
  · rintro _ s ⟨_, stops⟩ buckets rfl
    exact ⟨stops (by rintro ⟨_, ⟨⟩⟩), latch_eq free, rfl⟩

theorem getOrInsert?_halts (default : StateM ρ (Except String V)) (f : V → V) :
    Ends (getOrInsert? scheme key default f) ((map, env), own) (fun _ _ => True)
      (fun failure s => ∀ buckets, failure = .fault (.noMemory buckets) →
        Halted scheme (map, env) s.1 ∧ s.2 = own ∧ ∀ default',
          getOrInsert? scheme key default' f ((map, env), own) = (.error failure, s)) := by
  unfold getOrInsert?
  rw [ends_bind, ends_first, ends_read, ends_bind, ends_first, ends_onKeys]
  refine (KeyScheme.hashKey_ends.both ends_run).mono ?_ fun _ _ declines buckets denied =>
    absurd denied (declines_ne_noMemory declines.1 buckets)
  rintro hash keys ⟨hashes, hashed⟩
  rw [ends_writingWith free, ends_bind, ends_first, ends_onTable]
  refine ((Table.claim_offers sound).both
    ((Table.claim_stops sound estimated).both ends_run)).mono ?_ ?_
  · rintro (pos | ⟨index, offset⟩) s ⟨offered, _⟩
    · obtain ⟨_, _, holds, _⟩ := offered.overwritten hashes f
      simp only
      rw [ends_bind, ends_first, ends_onTable]
      exact (Table.ends_updateEntry holds _).mpr trivial
    · simp only
      rw [ends_bind, ends_second, ends_lift]
      cases (default own).1 with
      | error text => exact fun buckets denied => by cases denied
      | ok value =>
        simp only
        rw [ends_bind, ends_first, ends_onTable, Table.ends_fill]
        trivial
  · rintro _ s ⟨_, stops, unclaimed⟩ buckets rfl
    refine ⟨⟨stops (by rintro ⟨_, ⟨⟩⟩), latch_eq free, rfl⟩, rfl, fun default' => ?_⟩
    exact getOrInsert?_of_unclaimed free hashed unclaimed default' f

end

end Map

/-- The key of a request whose caller handles faults. -/
def Request.key? : Request K V ρ → Option K
  | .plain (.insert key _) | .plain (.getOrInsert key _ _) | .plain (.get key)
  | .plain (.getPair key) | .plain (.contains key) | .plain (.remove key)
  | .plain (.removePair key) | .getOrInsert key _ _ => some key
  | _ => none

/-- What a look-up or a removal answers for a key that is not there. -/
def Request.absent? : Request K V ρ → Option (Answer K V)
  | .plain (.get _) | .plain (.remove _) => some (.value? none)
  | .plain (.getPair _) | .plain (.removePair _) => some (.pair? none)
  | .plain (.contains _) => some (.holds false)
  | _ => none

/-- The seed that a request hashes its key with. -/
def Request.seed (request : Request K V ρ) (map : Map K V) : UInt64 :=
  if request.absent?.isSome ∧ map.isEmpty then 0 else map.table.seed

/-- A request was refused its key before it did anything, or it is one that need not hash its key
in an empty map, and answers that there is nothing. -/
def Request.Turned (scheme : KeyScheme K δ) (request : Request K V ρ) (refusal : Refusal)
    (map : Map K V) (env : Env δ) (keys : KeyEnv δ) (own : ρ)
    (result : Except Failure (Answer K V) × (Map K V × Env δ) × ρ) : Prop :=
  result = (.error (.fault (.refused refusal)), ((map, { env with keys }), own)) ∨
  ∃ answer, request.absent? = some answer ∧ map.isEmpty = true ∧
    scheme.traits.mayRefuse = false ∧ result = (.ok answer, ((map, env), own))

variable {scheme : KeyScheme K δ} {key : K} {map : Map K V} {refusal : Refusal}
  {keys keys' : KeyEnv δ} {env : Env δ} {own : ρ}

theorem KeyScheme.hashKey_of_refused {seed : UInt64}
    (refused : scheme.hash key seed keys = (.ok (.error refusal), keys')) :
    scheme.hashKey key seed keys = (.error (.fault (.refused refusal)), keys') := by
  unfold hashKey KeyM.toAction
  rw [bind_apply, adapt_apply, refused]
  rfl

theorem Map.position?_of_refused (free : map.latch.held = false)
    (refused : scheme.hash key (if map.isEmpty then 0 else map.table.seed) keys =
      (.ok (.error refusal), keys'))
    {post : Option Position → KeyEnv δ → Prop} {fails : Failure → KeyEnv δ → Prop}
    (stops : fails (.fault (.refused refusal)) keys')
    (idles : map.isEmpty = true → scheme.traits.mayRefuse = false → post none keys) :
    Ends (map.position? scheme key) keys post fails := by
  have hashed := KeyScheme.hashKey_of_refused refused
  unfold position?
  by_cases empty : map.isEmpty = true
  · rw [if_pos empty] at hashed ⊢
    unfold Table.probeEmpty
    by_cases may : scheme.traits.mayRefuse = true
    · rw [if_pos may, ends_bind, ends_discard, ends_of_run_error hashed]
      exact stops
    · rw [if_neg may]
      exact idles empty (Bool.eq_false_iff.mpr may)
  · rw [if_neg empty] at hashed ⊢
    have standing : map.latch.check .readDuringWrite = .ok () := by simp [Latch.check, free]
    rw [ends_bind, ends_check_ok standing, ends_bind, ends_of_run_error hashed]
    exact stops

namespace Map

/-- A removal hashes its key as a look-up does. -/
theorem removePair?_of_refused
    (refused : scheme.hash key (if map.isEmpty then 0 else map.table.seed) env.keys =
      (.ok (.error refusal), keys))
    {post : Option (K × V) → Map K V × Env δ → Prop} {fails : Failure → Map K V × Env δ → Prop}
    (stops : fails (.fault (.refused refusal)) (map, { env with keys }))
    (idles : map.isEmpty = true → scheme.traits.mayRefuse = false → post none (map, env)) :
    Ends (removePair? scheme key) (map, env) post fails := by
  have hashed := KeyScheme.hashKey_of_refused refused
  unfold removePair?
  rw [ends_bind, ends_read]
  by_cases empty : map.isEmpty = true
  · rw [if_pos empty] at hashed ⊢
    rw [ends_bind, ends_onKeys]
    unfold Table.probeEmpty
    by_cases may : scheme.traits.mayRefuse = true
    · rw [if_pos may, ends_discard, ends_of_run_error hashed]
      exact stops
    · rw [if_neg may]
      exact idles empty (Bool.eq_false_iff.mpr may)
  · rw [if_neg empty] at hashed ⊢
    rw [ends_bind, ends_read, ends_bind, ends_onKeys, ends_of_run_error hashed]
    exact stops

theorem insert?_of_refused (refused : scheme.hash key map.table.seed env.keys =
      (.ok (.error refusal), keys)) {value : V}
    {post : Option V → Map K V × Env δ → Prop} {fails : Failure → Map K V × Env δ → Prop}
    (stops : fails (.fault (.refused refusal)) (map, { env with keys })) :
    Ends (insert? scheme key value) (map, env) post fails := by
  unfold insert?
  rw [ends_bind, ends_read, ends_bind, ends_onKeys,
    ends_of_run_error (KeyScheme.hashKey_of_refused refused)]
  exact stops

theorem getOrInsert?_of_refused (refused : scheme.hash key map.table.seed env.keys =
      (.ok (.error refusal), keys)) {default : StateM ρ (Except String V)} {f : V → V}
    {post : V → (Map K V × Env δ) × ρ → Prop} {fails : Failure → (Map K V × Env δ) × ρ → Prop}
    (stops : fails (.fault (.refused refusal)) ((map, { env with keys }), own)) :
    Ends (getOrInsert? scheme key default f) ((map, env), own) post fails := by
  unfold getOrInsert?
  rw [ends_bind, ends_first, ends_read, ends_bind, ends_first, ends_onKeys,
    ends_of_run_error (KeyScheme.hashKey_of_refused refused)]
  exact stops

end Map

/-- Nothing is done for a key that is refused. -/
theorem Request.turned (free : map.latch.held = false) (request : Request K V ρ)
    (named : request.key? = some key)
    (refused : scheme.hash key (request.seed map) env.keys = (.ok (.error refusal), keys)) :
    request.Turned scheme refusal map env keys own
      (request.attempt scheme ((map, env), own)) := by
  have stops : request.Turned scheme refusal map env keys own
    (.error (.fault (.refused refusal)), ((map, { env with keys }), own)) := .inl rfl
  have idles (answer : Answer K V) (absent : request.absent? = some answer)
      (empty : map.isEmpty = true) (never : scheme.traits.mayRefuse = false) :
      request.Turned scheme refusal map env keys own (.ok answer, ((map, env), own)) :=
    .inr ⟨answer, absent, empty, never, rfl⟩
  have seeks (sought : request.absent?.isSome = true) :
      scheme.hash key (if map.isEmpty then 0 else map.table.seed) env.keys =
        (.ok (.error refusal), keys) := by
    unfold seed at refused
    simpa [sought] using refused
  have adds (none : request.absent? = none) :
      scheme.hash key map.table.seed env.keys = (.ok (.error refusal), keys) := by
    unfold seed at refused
    simpa [none] using refused
  apply ends_result.mp
  cases request with
  | retain => cases named
  | getOrInsert key default f =>
    cases named
    exact ends_map.mpr (Map.getOrInsert?_of_refused (adds rfl) stops)
  | plain call =>
    cases call with
    | insert key value =>
      cases named
      exact ends_map.mpr (ends_first.mpr (Map.insert?_of_refused (adds rfl) stops))
    | getOrInsert key default f =>
      cases named
      exact ends_map.mpr (Map.getOrInsert?_of_refused (adds rfl) stops)
    | get key =>
      cases named
      unfold attempt Call.attempt
      rw [Call.ends_reading]
      unfold Map.get? Map.getPair?
      rw [ends_bind, ends_bind]
      exact Map.position?_of_refused free (seeks rfl) stops (idles _ rfl)
    | getPair key =>
      cases named
      unfold attempt Call.attempt
      rw [Call.ends_reading]
      unfold Map.getPair?
      rw [ends_bind]
      exact Map.position?_of_refused free (seeks rfl) stops (idles _ rfl)
    | contains key =>
      cases named
      unfold attempt Call.attempt
      rw [Call.ends_reading]
      unfold Map.contains?
      rw [ends_bind]
      exact Map.position?_of_refused free (seeks rfl) stops (idles _ rfl)
    | remove key =>
      cases named
      refine ends_map.mpr (ends_first.mpr (ends_map.mpr ?_))
      exact Map.removePair?_of_refused (seeks rfl) stops (idles _ rfl)
    | removePair key =>
      cases named
      refine ends_map.mpr (ends_first.mpr ?_)
      exact Map.removePair?_of_refused (seeks rfl) stops (idles _ rfl)
    | adjust => cases named
    | extend => cases named
    | clear => cases named
    | retain => cases named
    | sweep => cases named
    | list => cases named
    | len => cases named

namespace Map

/-- A map that a failed insert has left as good as it was. -/
structure Undone (scheme : KeyScheme K δ) (before after : Map K V × Env δ) : Prop where
  entries : after.1.table.entries.Perm before.1.table.entries
  count : after.1.table.count = before.1.table.count
  seed : after.1.table.seed = before.1.table.seed
  exponent : after.1.table.exponent = before.1.table.exponent
  latch : after.1.latch = before.1.latch
  id : after.1.id = before.1.id
  idle : after.1.table.resize = none
  begun : after.2.begun = before.2.begun
  same : before.1.table.resize = none → after.1 = before.1
  upright : after.1.table.Upright
  filed : ∀ reading : Reading K, scheme.Agrees reading → reading.Coherent →
    after.1.table.Filed reading
  /-- Whatever the scheme is like, a look-up makes the comparisons of before where chains were only
  packed anew; and up to `2 ^ 15` chains, where the estimate is exact, no more than that is ended by
  an insert that goes on to grow. The end of a larger doubling is left out, which is a limit of the
  result for schemes that follow no reading: a chain was dealt to two, and a key may have been found
  there that was judged the same as the one it is looked up by, though their hashes differ. -/
  looksAlike : before.1.table.exponent < 16 ∨
      (∀ resize, before.1.table.resize = some resize → resize.sameSize = true) →
    LooksAlike scheme before.1 after.1
  /-- Under a scheme that follows a reading there is no such limit. Keys that are the same hash alike,
  and are dealt to the chain where they are looked for. -/
  answersAlike : ∀ reading : Reading K, scheme.Follows reading → reading.Coherent →
    AnswersAlike scheme before.1 after.1
  /-- With a value at hand, calls alone lead to this map. -/
  reachable : Nonempty V → Reachable scheme after.1

theorem Halted.undone {before after : Map K V × Env δ} (halted : Halted scheme before after)
    (reachable : Reachable scheme before.1) (arises : Arises scheme after.1)
    (reachable' : Nonempty V → Reachable scheme after.1) : Undone scheme before after := by
  obtain ⟨sound, free⟩ := reachable.intact
  have estimated := reachable.estimated
  obtain ⟨stopped, latch, id⟩ := halted
  obtain ⟨sound', steady⟩ := stopped.shifts.sound (Rules.any_heldBy scheme) sound
  have free' : after.1.latch.held = false := latch ▸ free
  refine ⟨steady.entries, steady.count, steady.seed, steady.exponent, latch, id, stopped.idle,
    stopped.shifts.begun, fun idle => ?_, sound'.upright arises.tiled,
    fun reading agrees coherent => ?_, fun narrow => ?_, fun reading follows coherent => ?_,
    reachable'⟩
  · have same := (Prod.mk.inj (stopped.eq_of_idle idle)).1
    obtain ⟨⟨_, _, _⟩, _⟩ := before
    obtain ⟨⟨_, _, _⟩, _⟩ := after
    cases same
    cases latch
    cases id
    rfl
  · have kept := reachable.kept agrees coherent
    have filed := (stopped.shifts.sound (Reading.rules_heldBy agrees.places True) kept.sound).1
    exact filed.filed coherent (kept.distinct.perm coherent steady.entries.symm)
  · have packs : ∀ resize, before.1.table.resize = some resize → resize.sameSize = true :=
      narrow.elim (stopped.packs sound estimated) fun packs => packs
    exact looksAlike_of_candidates sound sound' free free' steady.count steady.seed
      fun hash => (stopped.shifts.candidates_eq sound packs hash).1
  · have whole : before.1.Sound (reading.rules True) := reachable.sound follows
    have kept := reachable.kept follows.agrees coherent
    have held := Reading.rules_heldBy follows.reproduces.places True
    have whole' : after.1.Sound (reading.rules True) :=
      ⟨(stopped.shifts.sound held whole.table).1, steady.snug (fun _ => stopped.idle) whole.snug,
        free'⟩
    exact answersAlike_of_perm follows coherent whole whole' steady.count steady.seed kept.distinct
      steady.entries

/-- No fault changes what a map is. -/
structure SparedByFaults (scheme : KeyScheme K δ) (map : Map K V) : Prop where
  refused : ∀ {ρ : Type} (request : Request K V ρ) (key : K) (env : Env δ) (own : ρ)
    (refusal : Refusal) (keys : KeyEnv δ), request.key? = some key →
    scheme.hash key (request.seed map) env.keys = (.ok (.error refusal), keys) →
    request.Turned scheme refusal map env keys own (request.attempt scheme ((map, env), own))
  insert : ∀ (key : K) (value : V) (env : Env δ) (buckets : Nat) (s : Map K V × Env δ),
    Map.insert? scheme key value (map, env) = (.error (.fault (.noMemory buckets)), s) →
    Undone scheme (map, env) s
  /-- The run is the same with any other default: none was asked for. -/
  getOrInsert : ∀ {ρ : Type} (key : K) (default : StateM ρ (Except String V)) (f : V → V)
    (env : Env δ) (own : ρ) (buckets : Nat) (s : (Map K V × Env δ) × ρ),
    Map.getOrInsert? scheme key default f ((map, env), own) =
      (.error (.fault (.noMemory buckets)), s) →
    Undone scheme (map, env) s.1 ∧ s.2 = own ∧ ∀ default',
      Map.getOrInsert? scheme key default' f ((map, env), own) =
        (.error (.fault (.noMemory buckets)), s)

end Map

/-- Whatever calls a map has seen, and whatever its scheme is like. -/
theorem faults_spare_map (reachable : Reachable scheme map) : map.SparedByFaults scheme := by
  obtain ⟨sound, free⟩ := reachable.intact
  have estimated := reachable.estimated
  refine ⟨fun request key env own refusal keys named refused => request.turned free named refused,
    fun key value env buckets s run => ?_, fun key default f env own buckets s run => ?_⟩
  · have halted := (Map.insert?_halts sound free estimated value).failure run buckets rfl
    obtain ⟨after, env'⟩ := s
    have asked : Call.attempt scheme (.insert key value) ((map, env), ()) =
        (.error (.fault (.noMemory buckets)), ((after, env'), ())) := by
      symm
      apply ends_result.mp
      exact ends_map.mpr (ends_first.mpr ((ends_of_run_error run).mpr rfl))
    have onward : Reachable scheme after := .called _ reachable asked fun cause => by rintro ⟨⟩
    exact halted.undone reachable onward.arises fun _ => onward
  · obtain ⟨halted, same, others⟩ :=
      (Map.getOrInsert?_halts sound free estimated default f).failure run buckets rfl
    obtain ⟨⟨after, env'⟩, own'⟩ := s
    have answered (default' : StateM _ (Except String _)) :
        Request.attempt scheme (.getOrInsert key default' f) ((map, env), own) =
          (.error (.fault (.noMemory buckets)), ((after, env'), own')) := by
      symm
      apply ends_result.mp
      exact ends_map.mpr ((ends_of_run_error (others default')).mpr rfl)
    have asked := Arises.asked (.getOrInsert key default f) reachable.arises env own
    rw [answered default] at asked
    refine ⟨halted.undone reachable asked fun ⟨value⟩ => ?_, same, others⟩
    exact .called (.getOrInsert key (pure value) f) reachable (answered (.ok <$> pure value))
      fun cause => by rintro ⟨⟩

/-- Four chains are packed when memory is denied to a doubling. The packing has come to its end. -/
theorem faults_spare_map_amid_packing : ∃ map : Map UInt64 Nat,
    map.table.resize.isSome = true ∧
    (Map.insert? (Key.Masked.scheme {}) 3 0
      (map, { Env.lenient {} with grants := fun _ => false })).1 =
      .error (.fault (.noMemory 8)) ∧
    (Map.insert? (Key.Masked.scheme {}) 3 0
      (map, { Env.lenient {} with keys := ⟨{}, { refuse := 1 }⟩ })).1 =
      .error (.fault (.refused ⟨"func"⟩)) ∧
    map.SparedByFaults (Key.Masked.scheme {}) := by
  have made : Reachable (V := Nat) (Key.Masked.scheme {}) _ := .made .empty (.lenient {}) rfl
  -- The overflow buckets of the first chain stay linked, and the second chain links one more.
  obtain ⟨map, grown, packing, denied, refused⟩ : ∃ map : Map UInt64 Nat,
      Reachable (Key.Masked.scheme {}) map ∧ map.table.resize.isSome = true ∧
      (Map.insert? (Key.Masked.scheme {}) 3 0
        (map, { Env.lenient {} with grants := fun _ => false })).1 =
        .error (.fault (.noMemory 8)) ∧
      (Map.insert? (Key.Masked.scheme {}) 3 0
        (map, { Env.lenient {} with keys := ⟨{}, { refuse := 1 }⟩ })).1 =
        .error (.fault (.refused ⟨"func"⟩)) :=
    ⟨_, made.afterAll [.extend ((List.range 26).map fun n => ((4 * n).toUInt64, n)),
      .retain fun key value => pure (value, key < 64),
      .extend ((List.range 9).map fun n => ((4 * n + 1).toUInt64, n)), .insert 2 0]
      (.lenient {}) () (by decide +kernel), by decide +kernel⟩
  exact ⟨map, packing, denied, refused, faults_spare_map grown⟩

end GradualMap
