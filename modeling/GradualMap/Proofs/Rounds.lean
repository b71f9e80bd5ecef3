import GradualMap.Proofs.Estimate

/-!
How often an insert starts over. A search for room is repeated only after a resize was started, and
by then the table has room: a second round is the last one, so an insert starts one resize at most.
-/

namespace GradualMap

open GradualMap.Action

variable {K V δ ρ α β σ : Type}

namespace Action

variable {act : Action σ α} {s : σ} {view : σ → Nat}

/-- Two continuations need only agree where the operation leads. -/
theorem bind_congr_of_ends {f g : α → Action σ β} {post : α → σ → Prop}
    {fails : Failure → σ → Prop} (ends : act.Ends s post fails)
    (same : ∀ a after, post a after → f a after = g a after) : (act >>= f) s = (act >>= g) s := by
  unfold Ends at ends
  rw [bind_apply, bind_apply]
  generalize act s = run at *
  rcases run with ⟨_ | a, after⟩
  · rfl
  · exact same a after ends

/-- What holds of the state that an operation leaves, whatever comes of it. -/
theorem ends_state {holds : σ → Prop} :
    act.Ends s (fun _ => holds) (fun _ => holds) ↔ holds (act s).2 := by
  unfold Ends
  rcases act s with ⟨_ | _, _⟩ <;> rfl

theorem Leaves.ends_le {n : Nat} (leaves : act.Leaves view) (le : view s ≤ n) :
    act.Ends s (fun _ after => view after ≤ n) (fun _ after => view after ≤ n) :=
  ends_state.mpr (Nat.le_trans (Nat.le_of_eq (leaves s)) le)

/-- Whatever comes of the operation, the view grows by `n` at most. -/
def Raises (view : σ → Nat) (n : Nat) (act : Action σ α) : Prop :=
  ∀ s, view (act s).2 ≤ view s + n

theorem Leaves.raises (leaves : act.Leaves view) (n : Nat) : act.Raises view n :=
  fun s => Nat.le_trans (Nat.le_of_eq (leaves s)) (Nat.le_add_right _ _)

theorem Raises.bind {n m : Nat} {f : α → Action σ β} (raises : act.Raises view n)
    (later : ∀ a, (f a).Raises view m) : Raises view (n + m) (act >>= f) := by
  intro s
  have first := raises s
  rw [bind_apply]
  generalize act s = run at *
  rcases run with ⟨_ | a, after⟩
  · exact Nat.le_trans first (Nat.add_le_add_left (Nat.le_add_right n m) _)
  · have second := later a after
    simp only at *
    omega

theorem Leaves.raises_bind {n : Nat} {f : α → Action σ β} (leaves : act.Leaves view)
    (later : ∀ a, (f a).Raises view n) : Raises view n (act >>= f) :=
  Nat.zero_add n ▸ (leaves.raises 0).bind later

end Action

/-- How many resizes the events tell the start of. -/
def Env.begun (env : Env δ) : Nat :=
  env.log.countP Event.starts

instance : Env.Aloof (Env.begun : Env δ → Nat) where
  asked _ _ := rfl
  told env event quiet := by simp [Env.begun, quiet]

namespace Table

/-- One round of a claim; `full` is what comes next if a resize must be started for a new entry. -/
def claimRound (scheme : KeyScheme K δ) (key : K) (hash : UInt64)
    (full : TableAction K V δ Claim) : TableAction K V δ Claim := do
  let index := bucketIndex hash (← read).exponent
  growWork scheme index
  let chain ← .check ((← read).current.fetch index)
  match ← onKeys (chain.probe scheme key hash) with
  | .found offset => return .occupied ⟨.current, index, offset⟩
  | .missing free =>
    if (← read).mustGrow then
      full
    else
      match free with
      | some offset => return .vacant index offset
      | none =>
        linkOverflow index
        return .vacant index chain.slots.length

variable {scheme : KeyScheme K δ} {key : K} {hash : UInt64} {table : Table K V} {env : Env δ}

theorem claimWithin_succ (rounds : Nat) :
    claimWithin (V := V) scheme key hash (rounds + 1) =
      claimRound scheme key hash (do startGrowth; claimWithin scheme key hash rounds) :=
  rfl

theorem read_bind (f : Table K V → TableAction K V δ α) (s : Table K V × Env δ) :
    (read >>= f) s = f s.1 s :=
  rfl

/-- What comes next matters only for a table that must grow. -/
theorem claimRound_congr {full full' : TableAction K V δ Claim} (sound : table.Sound Rules.any)
    (allocated : table.current.size ≠ 0)
    (same : ∀ s, Readied scheme (bucketIndex hash table.exponent) (table, env) s →
      s.1.mustGrow = true → full s = full' s) :
    claimRound scheme key hash full (table, env) =
      claimRound scheme key hash full' (table, env) := by
  unfold claimRound
  rw [read_bind, read_bind]
  apply bind_congr_of_ends (growWork_readies (Rules.any_heldBy scheme) sound _ env)
  rintro _ ⟨after, env'⟩ ⟨sound', steady, ready⟩
  have bound : bucketIndex hash table.exponent < after.current.size := by
    rw [steady.size]
    exact sound.bucketIndex_lt allocated hash
  rw [read_bind, read_bind]
  have fetches : Ends (check (after.current.fetch (bucketIndex hash table.exponent)))
      (after, env') (fun _ s => s = (after, env')) fun _ _ => True :=
    (ends_check_ok (BucketArray.fetch_eq bound)).mpr rfl
  apply bind_congr_of_ends fetches
  rintro chain _ rfl
  have asks : Ends (onKeys (chain.probe scheme key hash)) (after, env')
      (fun _ s => ∃ keys, s = (after, { env' with keys })) fun _ _ => True :=
    ends_onKeys.mpr (ends_run.mono (fun _ keys _ => ⟨keys, rfl⟩) fun _ _ _ => trivial)
  apply bind_congr_of_ends asks
  rintro (offset | free) _ ⟨keys, rfl⟩
  · rfl
  · simp only
    rw [read_bind, read_bind]
    split
    · rename_i must
      exact same _ (ready keys) must
    · rfl

/-- A resize that was started and taken forward leaves room for a new entry, or is in flight. -/
theorem Readied.calm {index : Nat} {s : Table K V × Env δ} (sound : table.Sound Rules.any)
    (roomy : table.Uncrowded) (allocated : table.current.size ≠ 0) (idle : table.resize = none)
    (small : table.started.exponent < exponentLimit)
    (ready : Readied scheme index (table.started, env) s) : s.1.mustGrow = false := by
  have sound' := sound.started idle (sound.size_eq allocated) small
  obtain ⟨_, steady⟩ := ready.worked.shifts.sound (Rules.any_heldBy scheme) sound'
  unfold Uncrowded at roomy
  rw [allowance_of_idle idle] at roomy
  exact (roomy_of_grown (fun _ => roomy) sound allocated (started_spec sound idle) steady
    ready.ended).1

/-- The round after the start of a resize finds the key or makes room, and starts no other one. -/
theorem started_round_ends {rules : Rules K} {stalls : Failure → Prop}
    (held : rules.HeldBy scheme stalls) (exact : rules.exact) (sound : table.Sound rules)
    (roomy : table.Uncrowded) (allocated : table.current.size ≠ 0) (idle : table.resize = none)
    (small : table.started.exponent < exponentLimit) {rounds : Nat}
    {post : Claim → Table K V × Env δ → Prop} {fails : Failure → Table K V × Env δ → Prop}
    (stalled : ∀ failure s, stalls failure → fails failure s)
    (balked : ∀ failure s, scheme.Balks failure → fails failure s)
    (found : ∀ s offset entry,
      Readied scheme (bucketIndex hash table.started.exponent) (table.started, env) s →
      s.1.Holds ⟨.current, bucketIndex hash s.1.exponent, offset⟩ (topHash hash) entry →
      scheme.Judges key entry.key true →
      post (.occupied ⟨.current, bucketIndex hash s.1.exponent, offset⟩) s)
    (vacant : ∀ between s offset,
      Readied scheme (bucketIndex hash table.started.exponent) (table.started, env) between →
      between.1.mustGrow = false → between.1.Located scheme key hash none →
      Room (bucketIndex hash between.1.exponent) (between.1, between.2.log) offset (s.1, s.2.log) →
      post (.vacant (bucketIndex hash between.1.exponent) offset) s) :
    Ends (claimWithin scheme key hash (rounds + 1)) (table.started, env) post fails := by
  have sound' := sound.started idle (sound.size_eq allocated) small
  apply round_ends held sound' (allocated_started table)
  · exact growWork_stalls held sound' _ _ stalled
  · exact fun failure s _ balks => balked failure s balks
  · exact found
  · intro s ready must _
    rw [ready.calm (sound.any exact) roomy allocated idle small] at must
    cases must
  · exact vacant

/-- After the start of a resize one round is enough. -/
theorem grown_congr {rounds : Nat} {never : TableAction K V δ Claim} {s : Table K V × Env δ}
    (sound : s.1.Sound Rules.any) (roomy : s.1.Uncrowded) (allocated : s.1.current.size ≠ 0)
    (must : s.1.mustGrow = true) :
    (do startGrowth; claimWithin scheme key hash (rounds + 1)) s =
      (do startGrowth; claimRound scheme key hash never) s := by
  have idle := idle_of_mustGrow must
  apply bind_congr_of_ends (startGrowth_ends sound allocated s.2)
  rintro _ ⟨_, env'⟩ ⟨rfl, small, _⟩
  have sound' := sound.started idle (sound.size_eq allocated) small
  rw [claimWithin_succ]
  apply claimRound_congr sound' (allocated_started s.1)
  intro s' ready must'
  rw [ready.calm sound roomy allocated idle small] at must'
  cases must'

/-- Two rounds of a claim, the second after a resize was started; `never` is what a third one would
be. -/
def claimTwice (scheme : KeyScheme K δ) (key : K) (hash : UInt64)
    (never : TableAction K V δ Claim) : TableAction K V δ Claim := do
  reserve
  claimRound scheme key hash (do startGrowth; claimRound scheme key hash never)

/-- The first steps of a claim leave a table with an array. -/
theorem reserve_readies (sound : table.Sound Rules.any) (roomy : table.Uncrowded) (env : Env δ) :
    Ends reserve (table, env)
      (fun _ s => s.1.Sound Rules.any ∧ s.1.Uncrowded ∧ s.1.current.size ≠ 0)
      (fun _ _ => True) := by
  apply (reserve_ends sound env).mono ?_ fun _ _ _ => trivial
  rintro _ ⟨_, env'⟩ ⟨_, ⟨allocated, rfl⟩ | ⟨bare, rfl⟩⟩
  · exact ⟨sound, roomy, allocated⟩
  · exact ⟨(sound.reserved bare).1, roomy, allocated_reserved table⟩

theorem Readied.onward {index : Nat} {s : Table K V × Env δ} (sound : table.Sound Rules.any)
    (roomy : table.Uncrowded) (allocated : table.current.size ≠ 0)
    (ready : Readied scheme index (table, env) s) :
    s.1.Sound Rules.any ∧ s.1.Uncrowded ∧ s.1.current.size ≠ 0 := by
  obtain ⟨sound', steady⟩ := ready.worked.shifts.sound (Rules.any_heldBy scheme) sound
  exact ⟨sound', ready.worked.shifts.uncrowded sound roomy, steady.size ▸ allocated⟩

/-- Whatever a third round were to do, there is none. -/
theorem claimWithin_eq_twice (sound : table.Sound Rules.any) (roomy : table.Uncrowded)
    (rounds : Nat) (never : TableAction K V δ Claim) :
    (do reserve; claimWithin scheme key hash (rounds + 2)) (table, env) =
      claimTwice scheme key hash never (table, env) := by
  apply bind_congr_of_ends (reserve_readies sound roomy env)
  rintro _ ⟨table', env'⟩ ⟨sound', roomy', allocated'⟩
  rw [claimWithin_succ]
  apply claimRound_congr sound' allocated'
  intro s ready must
  obtain ⟨sound'', roomy'', allocated''⟩ := ready.onward sound' roomy' allocated'
  exact grown_congr sound'' roomy'' allocated'' must

/-- The work of a claim's first round, and that of the second after a resize was started. -/
theorem calm_of_grown (sound : table.Sound Rules.any) (roomy : table.Uncrowded)
    {index index' : Nat} {env' : Env δ} {between after : Table K V × Env δ}
    (first : (do reserve; growWork scheme index) (table, env) = (.ok (), between))
    (must : between.1.mustGrow = true)
    (second : (do startGrowth; growWork scheme index') (between.1, env') = (.ok (), after)) :
    after.1.mustGrow = false := by
  have start : Ends (do reserve; growWork scheme index) (table, env)
      (fun _ s => s.1.Sound Rules.any ∧ s.1.Uncrowded ∧ s.1.current.size ≠ 0)
      (fun _ _ => True) := by
    rw [ends_bind]
    apply (reserve_readies sound roomy env).mono ?_ fun _ _ _ => trivial
    rintro _ ⟨table', env'⟩ ⟨sound', roomy', allocated'⟩
    apply (growWork_readies (Rules.any_heldBy scheme) sound' index env').mono ?_
      fun _ _ _ => trivial
    rintro _ s ⟨_, _, ready⟩
    exact (ready s.2.keys).onward sound' roomy' allocated'
  obtain ⟨sound', roomy', allocated'⟩ := start.answer first
  have idle := idle_of_mustGrow must
  have work : Ends (do startGrowth; growWork scheme index') (between.1, env')
      (fun _ s => s.1.mustGrow = false) (fun _ _ => True) := by
    rw [ends_bind]
    apply (startGrowth_ends sound' allocated' env').mono ?_ fun _ _ _ => trivial
    rintro _ ⟨_, env''⟩ ⟨rfl, small, _⟩
    have sound'' := sound'.started idle (sound'.size_eq allocated') small
    apply (growWork_readies (Rules.any_heldBy scheme) sound'' index' env'').mono ?_
      fun _ _ _ => trivial
    rintro _ s ⟨_, _, ready⟩
    exact (ready s.2.keys).calm sound' roomy' allocated' idle small
  exact work.answer second

theorem startGrowth_raises : Raises (Env.around Env.begun) 1
    (startGrowth : TableAction K V δ Unit) := by
  have told (event : Event) : Raises (Env.around Env.begun) 1
      (record event : TableAction K V δ Unit) := by
    intro s
    change List.countP Event.starts (event :: s.2.log) ≤ _
    rw [List.countP_cons]
    split <;> simp [Env.begun]
  exact leaves_read.raises_bind fun _ => Env.leaves_allocate.second.raises_bind fun _ =>
    (told _).bind fun _ => leaves_modify.raises 0

theorem claimRound_raises {n : Nat} {full : TableAction K V δ Claim}
    (raises : Raises (Env.around Env.begun) n full) :
    Raises (Env.around Env.begun) n (claimRound scheme key hash full) := by
  refine leaves_read.raises_bind fun table => leaves_growWork.raises_bind fun _ =>
    leaves_read.raises_bind fun _ => leaves_check.raises_bind fun chain =>
      leaves_onKeys.raises_bind fun answer => ?_
  cases answer with
  | found offset => exact leaves_pure.raises n
  | missing free =>
    apply leaves_read.raises_bind
    intro table
    split
    · exact raises
    · cases free with
      | some offset => exact leaves_pure.raises n
      | none => exact leaves_linkOverflow.raises_bind fun _ => leaves_pure.raises n

theorem claimTwice_raises {never : TableAction K V δ Claim}
    (raises : Raises (Env.around Env.begun) 0 never) :
    Raises (Env.around Env.begun) 1 (claimTwice scheme key hash never) :=
  leaves_reserve.raises_bind fun _ => claimRound_raises
    (startGrowth_raises.bind fun _ => claimRound_raises raises)

/-- Whatever comes of a claim, it starts one resize at most. -/
theorem claim_begins (sound : table.Sound Rules.any) (roomy : table.Uncrowded) :
    Ends (claim scheme key hash) (table, env) (fun _ s => s.2.begun ≤ env.begun + 1)
      (fun _ s => s.2.begun ≤ env.begun + 1) := by
  apply ends_state.mpr
  unfold claim
  rw [claimWithin_eq_twice sound roomy _ (abort .growthRestarts)]
  exact claimTwice_raises (leaves_abort.raises 0) (table, env)

end Table

namespace Map

variable {scheme : KeyScheme K δ} {key : K} {map : Map K V} {env : Env δ} {own : ρ}

theorem insert?_begins (sound : map.table.Sound Rules.any) (roomy : map.table.Uncrowded)
    (free : map.latch.held = false) (value : V) :
    Ends (insert? scheme key value) (map, env) (fun _ s => s.2.begun ≤ env.begun + 1)
      (fun _ s => s.2.begun ≤ env.begun + 1) := by
  unfold insert?
  rw [ends_bind, ends_read, ends_bind, ends_onKeys]
  refine ends_run.mono ?_ fun _ keys _ => Nat.le_succ _
  intro hash keys _
  rw [ends_writing free, ends_onTable, ends_bind]
  refine (Table.claim_begins sound roomy).mono ?_ fun _ _ begun => begun
  rintro (pos | ⟨index, offset⟩) s begun
  · simp only
    rw [ends_bind]
    exact (Table.leaves_updateEntry.ends_le begun).mono (fun _ _ le => le) fun _ _ le => le
  · simp only
    rw [ends_bind, Table.ends_fill]
    exact begun

theorem getOrInsert?_begins (sound : map.table.Sound Rules.any) (roomy : map.table.Uncrowded)
    (free : map.latch.held = false) (default : StateM ρ (Except String V)) (f : V → V) :
    Ends (getOrInsert? scheme key default f) ((map, env), own)
      (fun _ s => s.1.2.begun ≤ env.begun + 1) (fun _ s => s.1.2.begun ≤ env.begun + 1) := by
  unfold getOrInsert?
  rw [ends_bind, ends_first, ends_read, ends_bind, ends_first, ends_onKeys]
  refine ends_run.mono ?_ fun _ keys _ => Nat.le_succ _
  intro hash keys _
  rw [ends_writingWith free, ends_bind, ends_first, ends_onTable]
  refine (Table.claim_begins sound roomy).mono ?_ fun _ _ begun => begun
  rintro (pos | ⟨index, offset⟩) s begun
  · simp only
    rw [ends_bind, ends_first, ends_onTable]
    exact (Table.leaves_updateEntry.ends_le begun).mono (fun _ _ le => le) fun _ _ le => le
  · simp only
    rw [ends_bind, ends_second, ends_lift]
    cases (default own).1 with
    | error text => exact begun
    | ok value =>
      simp only
      rw [ends_bind, ends_first, ends_onTable, Table.ends_fill]
      exact begun

end Map

/-- An insert into the map starts one resize at most, also if it aborts. -/
structure Map.StartsOnce (scheme : KeyScheme K δ) (map : Map K V) : Prop where
  /-- A claim is two rounds, whatever a third one would do. -/
  twice : ∀ (key : K) (hash : UInt64) (env : Env δ) (never : TableAction K V δ Claim),
    Table.claim scheme key hash (map.table, env) =
      Table.claimTwice scheme key hash never (map.table, env)
  /-- So it comes to the same however many more rounds it is given. -/
  rounds : ∀ (key : K) (hash : UInt64) (env : Env δ) (rounds : Nat),
    (do Table.reserve; Table.claimWithin scheme key hash (rounds + 2)) (map.table, env) =
      Table.claim scheme key hash (map.table, env)
  insert : ∀ (key : K) (value : V) (env : Env δ),
    (Map.insert? scheme key value (map, env)).2.2.begun ≤ env.begun + 1
  getOrInsert : ∀ {ρ : Type} (key : K) (default : StateM ρ (Except String V)) (f : V → V)
    (env : Env δ) (own : ρ),
    (Map.getOrInsert? scheme key default f ((map, env), own)).2.1.2.begun ≤ env.begun + 1
  /-- Once a resize was started and taken forward, it is in flight or the table has room. -/
  calm : ∀ (index index' : Nat) (env env' : Env δ) (between after : Table K V × Env δ),
    (do Table.reserve; Table.growWork scheme index) (map.table, env) = (.ok (), between) →
    between.1.mustGrow = true →
    (do Table.startGrowth; Table.growWork scheme index') (between.1, env') = (.ok (), after) →
    after.1.resize.isSome = true ∨ overloaded (after.1.count + 1) after.1.exponent = false ∧
      tooScattered after.1.overflowCount after.1.exponent = false

/-- Whatever calls a map has seen, and whatever the key and its hash, an insert starts over once at
most. -/
theorem insert_starts_one_resize {scheme : KeyScheme K δ} {map : Map K V}
    (reachable : Reachable scheme map) : map.StartsOnce scheme := by
  obtain ⟨sound, free⟩ := reachable.intact
  have roomy := reachable.estimated.roomy
  have twice (key : K) (hash : UInt64) (env : Env δ) (never : TableAction K V δ Claim) :
      Table.claim scheme key hash (map.table, env) =
        Table.claimTwice scheme key hash never (map.table, env) :=
    Table.claimWithin_eq_twice sound roomy exponentLimit never
  refine ⟨twice, fun key hash env rounds => ?_, fun key value env => ?_,
    fun key default f env own => ?_, ?_⟩
  · rw [Table.claimWithin_eq_twice sound roomy rounds (abort .growthRestarts), ← twice]
  · exact ends_state.mp (Map.insert?_begins sound roomy free value)
  · exact ends_state.mp (Map.getOrInsert?_begins sound roomy free default f)
  · intro index index' env env' between after first must second
    have calm := Table.calm_of_grown sound roomy first must second
    cases growing : after.1.resize with
    | some resize => exact .inl rfl
    | none => simpa [Table.mustGrow, growing] using calm

/-- Two chains with thirteen entries: the next one starts a doubling, and ends it too. -/
theorem insert_starts_one_resize_when_full : ∃ map : Map UInt64 Nat,
    map.table.mustGrow = true ∧
    (Map.insert? (Key.word {}) 13 13 (map, .ample {})).2.2.begun = 1 ∧
    (Map.insert? (Key.word {}) 13 13 (map, .ample {})).2.1.table.resize = none ∧
    map.StartsOnce (Key.word {}) := by
  have made : Reachable (V := Nat) (Key.word {}) _ := .made .empty (.ample {}) rfl
  obtain ⟨map, grown, must, begun, idle⟩ : ∃ map : Map UInt64 Nat,
      Reachable (Key.word {}) map ∧ map.table.mustGrow = true ∧
      (Map.insert? (Key.word {}) 13 13 (map, .ample {})).2.2.begun = 1 ∧
      (Map.insert? (Key.word {}) 13 13 (map, .ample {})).2.1.table.resize = none :=
    ⟨_, made.after (.extend ((List.range 13).map fun n => (n.toUInt64, n))) (.ample {}) ()
      (by decide +kernel), by decide +kernel⟩
  exact ⟨map, must, begun, idle, insert_starts_one_resize grown⟩

end GradualMap
