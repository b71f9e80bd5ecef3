import GradualMap.Proofs.Resizing

/-!
A call in stages. What it does to a table is done by the functions of the table, one after another,
each run from the very state that the one before it has left. So the books of a resize are in order
at every stage of a call, and what is said of an array that is dropped is said of it as it was then.
-/

namespace GradualMap

open GradualMap.Action

variable {K V δ ρ : Type}

namespace Table

/-- What is done at one stage of a call: one of the functions of a table is run and comes to its
end. Of those that take entries out, only the one of the given way is run. -/
inductive Does (scheme : KeyScheme K δ) (way : Option Withdrawal) :
    Table K V × Env δ → Table K V × Env δ → Prop
  /-- Only the key scheme or the random stream is asked. -/
  | asked {table : Table K V} {env : Env δ} (keys : KeyEnv δ) :
      Does scheme way (table, env) (table, { env with keys })
  | reserved {s s' : Table K V × Env δ} (run : reserve s = (.ok (), s')) : Does scheme way s s'
  | started {s s' : Table K V × Env δ} (run : startGrowth s = (.ok (), s')) : Does scheme way s s'
  | evacuated {s s' : Table K V × Env δ} {resize : Resize K V} {old : Nat}
      (growing : s.1.resize = some resize)
      (run : evacuateSlots scheme (resize.routing s.1.seed) old (resize.array.chainAt old).slots 0
        {} s = (.ok (), s')) : Does scheme way s s'
  | advanced {s s' : Table K V × Env δ} (run : advanceCursor s = (.ok (), s')) :
      Does scheme way s s'
  | linked {s s' : Table K V × Env δ} {index : Nat} (run : linkOverflow index s = (.ok (), s')) :
      Does scheme way s s'
  /-- An entry is stored in the first free slot of its chain. -/
  | filled {s s' : Table K V × Env δ} {index offset : Nat} {hash : UInt64} {entry : Entry K V}
      (free : (s.1.current.chainAt index).slots.findIdx? (·.tag.isEmpty) = some offset)
      (run : fill index offset hash entry s = (.ok (), s')) : Does scheme way s s'
  | revalued {s s' : Table K V × Env δ} {pos : Position} {f : V → V} {before : Entry K V}
      (run : updateEntry pos (fun entry => { entry with value := f entry.value }) s =
        (.ok before, s')) : Does scheme way s s'
  | overwritten {s s' : Table K V × Env δ} {pos : Position} {key : K} {f : V → V}
      {before : Entry K V} (run : updateEntry pos (Map.overwrite scheme key f) s =
        (.ok before, s')) : Does scheme way s s'
  | taken {s s' : Table K V × Env δ} {index offset : Nat} (called : way = some .delete)
      (run : takeOut index offset s = (.ok (), s')) : Does scheme way s s'
  | retained {s s' : Table K V × Env δ} {ρ : Type} {f : K → V → StateM ρ (V × Except String Bool)}
      {own own' : ρ} (called : way = some .retain)
      (run : retainSettled f (s, own) = (.ok (), (s', own'))) : Does scheme way s s'
  | cleared {s s' : Table K V × Env δ} (called : way = some .clear)
      (run : clear s = (.ok (), s')) : Does scheme way s s'

/-- One stage of a call. -/
structure Stage (scheme : KeyScheme K δ) (way : Option Withdrawal)
    (before after : Table K V × Env δ) : Prop where
  does : Does scheme way before after
  books : after.1.Bookkept
  /-- A resize is started only where none is in flight. -/
  starts : ∃ news : List Event, after.2.log = news ++ before.2.log ∧
    ∀ event ∈ news, event.starts = true → before.1.resize = none
  /-- One that is in flight goes on as what it was started as. -/
  stays : ∀ {resize resize' : Resize K V}, before.1.resize = some resize →
    after.1.resize = some resize' → resize.Onward resize'
  /-- The old array is dropped only once no entry is left in it, unless the call is to clear the
  table. -/
  drops : ∀ {resize : Resize K V}, before.1.resize = some resize → after.1.resize = none →
    (∀ slot ∈ resize.array.slots, slot.entry = none) ∨
      way = some .clear ∧ after.2.log = .cleared before.1.exponent :: before.2.log

abbrev Stages (scheme : KeyScheme K δ) (way : Option Withdrawal) :
    Table K V × Env δ → Table K V × Env δ → Prop :=
  Relation.ReflTransGen (Stage scheme way)

variable {scheme : KeyScheme K δ} {way : Option Withdrawal} {key : K} {hash : UInt64}
  {start before after : Table K V × Env δ} {table : Table K V} {env : Env δ} {resize : Resize K V}

/-- Stages that have led to a table which is what its tags say. -/
structure Staged (scheme : KeyScheme K δ) (way : Option Withdrawal) (start s : Table K V × Env δ) :
    Prop where
  stages : Stages scheme way start s
  sound : s.1.Sound Rules.any

namespace Staged

theorem stage (staged : Staged scheme way start before) {log : List Event}
    (does : Does scheme way before after) (told : after.2.log = log)
    (turn : Turn (way = some .clear) (before.1, before.2.log) (after.1, log))
    (sound : after.1.Sound Rules.any) : Staged scheme way start after := by
  subst told
  exact ⟨staged.stages.tail ⟨does, sound.bookkept, turn.starts, turn.stays, turn.drops⟩, sound⟩

theorem asked (staged : Staged scheme way start (table, env)) (keys : KeyEnv δ) :
    Staged scheme way start (table, { env with keys }) :=
  staged.stage (.asked keys) rfl (.quietly _ (alike_refl _)) staged.sound

/-- A resize in flight is taken one step forward. -/
theorem shift (staged : Staged scheme way start before) (does : Does scheme way before after)
    (shift : Shift scheme (before.1, before.2.log) (after.1, after.2.log)) :
    Staged scheme way start after :=
  staged.stage does rfl shift.turn (shift.sound (Rules.any_heldBy scheme) staged.sound).1

theorem evacuate (staged : Staged scheme way start (table, env))
    (growing : table.resize = some resize) {old : Nat} (bound : old < resize.array.size) :
    Ends (evacuate scheme old) (table, env)
      (fun _ s => Staged scheme way start s) (fun failure _ => failure.Aborts) := by
  have onward {after : Table K V} {env' : Env δ} {array : BucketArray K V}
      (staged : Staged scheme way start (after, env'))
      (growing' : after.resize = some { resize with array })
      (vacated : Row.Vacated (array.chainAt old).slots) :
      Ends (if old = resize.cursor then advanceCursor else pure ()) (after, env')
        (fun _ s => Staged scheme way start s) (fun failure _ => failure.Aborts) := by
    split
    · rename_i here
      refine ((advanceCursor_yields scheme staged.sound growing' (here ▸ vacated) env').also
        ends_run).ends ?_
      rintro _ s ⟨⟨shift, _⟩, run⟩
      exact staged.shift (.advanced run) shift
    · exact staged
  rw [ends_evacuate growing bound]
  split
  · rename_i evacuated
    exact onward staged growing ((staged.sound.isEvacuated_iff growing bound).mp evacuated)
  · rename_i waits
    refine ((moveChain_ends (Rules.any_heldBy scheme) staged.sound growing bound
      (Bool.eq_false_iff.mpr waits) env).both ends_run).mono ?_ fun _ _ => And.left
    rintro _ ⟨after, env'⟩ ⟨⟨shift, array, growing', _, _, vacated⟩, run⟩
    exact onward (staged.shift (.evacuated growing run) shift) growing' vacated

theorem evacuateNext (staged : Staged scheme way start (table, env)) :
    Ends (evacuateNext scheme) (table, env)
      (fun _ s => Staged scheme way start s) (fun failure _ => failure.Aborts) := by
  unfold Table.evacuateNext
  rw [ends_bind, ends_read]
  cases growing : table.resize with
  | none => exact staged
  | some resize => exact staged.evacuate growing (staged.sound.resizing resize growing).cursor_lt

theorem growWork (staged : Staged scheme way start (table, env)) (index : Nat) :
    Ends (growWork scheme index) (table, env)
      (fun _ s => Staged scheme way start s) (fun failure _ => failure.Aborts) := by
  unfold Table.growWork
  rw [ends_bind, ends_read]
  cases growing : table.resize with
  | none => exact staged
  | some resize =>
    have pos : 0 < resize.array.size :=
      Nat.zero_lt_of_lt (staged.sound.resizing resize growing).cursor_lt
    simp only
    rw [ends_bind, ends_check_ok (BucketArray.wrap_eq pos), ends_bind]
    exact (staged.evacuate growing (Nat.mod_lt index pos)).mono
      (fun _ _ staged' => staged'.evacuateNext) fun _ _ => id

theorem finishGrowth (staged : Staged scheme way start (table, env)) :
    Ends (finishGrowth scheme) (table, env)
      (fun _ s => Staged scheme way start s) (fun failure _ => failure.Aborts) := by
  have within (steps : Nat) : ∀ {table : Table K V} {env : Env δ},
      Staged scheme way start (table, env) →
      Ends (finishGrowthWithin scheme steps) (table, env)
        (fun _ s => Staged scheme way start s) (fun failure _ => failure.Aborts) := by
    induction steps with
    | zero => exact fun staged => staged
    | succ steps ih =>
      intro table env staged
      unfold finishGrowthWithin
      rw [ends_bind, ends_read]
      split
      · rw [ends_bind]
        exact staged.evacuateNext.mono (fun _ _ staged' => ih staged') fun _ _ => id
      · exact staged
  unfold Table.finishGrowth
  rw [ends_bind, ends_read]
  cases table.resize with
  | none => exact staged
  | some resize => exact within _ staged

/-- A resize is started when a table must grow. -/
theorem startGrowth (staged : Staged scheme way start (table, env))
    (allocated : table.current.size ≠ 0) (must : table.mustGrow = true) :
    Ends startGrowth (table, env)
      (fun _ s => Staged scheme way start s ∧ s.1.current.size ≠ 0)
      (fun _ s => s = (table, env)) := by
  have idle := idle_of_mustGrow must
  refine ((startGrowth_ends staged.sound allocated env).both ends_run).mono ?_
    fun _ _ failed => failed.1.1
  rintro _ ⟨_, env'⟩ ⟨⟨rfl, small, log⟩, run⟩
  have sound := staged.sound.started idle (staged.sound.size_eq allocated) small
  exact ⟨staged.stage (.started run) log (.started idle rfl) sound, allocated_started table⟩

theorem reserve (staged : Staged scheme way start (table, env)) :
    Ends reserve (table, env)
      (fun _ s => Staged scheme way start s ∧ s.1.current.size ≠ 0)
      (fun _ s => s = (table, env)) := by
  refine ((reserve_ends staged.sound env).both ends_run).mono ?_ fun _ _ failed => failed.1.1
  rintro _ ⟨after, env'⟩ ⟨⟨log, made⟩, run⟩
  have alike : Option.Rel Resize.Alike table.resize after.resize := by
    rcases made with ⟨_, rfl⟩ | ⟨_, rfl⟩ <;> exact alike_refl _
  have sound : after.Sound Rules.any ∧ after.current.size ≠ 0 := by
    rcases made with ⟨allocated, rfl⟩ | ⟨bare, rfl⟩
    · exact ⟨staged.sound, allocated⟩
    · exact ⟨(staged.sound.reserved bare).1, allocated_reserved table⟩
  exact ⟨staged.stage (.reserved run) log (.quietly _ alike) sound.1, sound.2⟩

theorem linkOverflow (staged : Staged scheme way start (table, env)) {index : Nat}
    (bound : index < table.current.size) (settled : table.Settled index) :
    Yields (linkOverflow index) (table, env) fun _ s => Staged scheme way start s := by
  refine ((linkOverflow_yields table index env).also ends_run).ends ?_
  rintro _ ⟨_, env'⟩ ⟨⟨overflowCount, rfl, counted, log⟩, run⟩
  refine staged.stage (.linked run) log (.aside [_] (fun event mem => ?_) (alike_refl _))
    (staged.sound.linked bound settled overflowCount).1
  obtain rfl := List.mem_singleton.mp mem
  rfl

theorem claimWithin (rounds : Nat) : ∀ {table : Table K V} {env : Env δ},
    Staged scheme way start (table, env) → table.current.size ≠ 0 →
    Leads (claimWithin scheme key hash rounds) (table, env)
      fun s => Staged scheme way start s := by
  induction rounds with
  | zero =>
    intro table env _ _
    exact fun calm => absurd ⟨_, rfl⟩ calm
  | succ rounds ih =>
    intro table env staged allocated
    have bound := staged.sound.bucketIndex_lt allocated hash
    unfold Table.claimWithin Leads
    rw [ends_bind, ends_read]
    apply search_ends (Rules.any_heldBy scheme) staged.sound bound
      (fun s => Staged scheme way start s)
      ((staged.growWork _).mono (fun _ _ staged' => staged'.asked)
        fun _ _ aborts calm => absurd aborts calm)
      fun failure s _ balks calm => absurd balks.aborts calm
    rintro ⟨between, env'⟩ (offset | free) ready staged' answers
    · exact staged'
    · have steady := (ready.drifts staged.sound).2.1
      have allocated' : between.current.size ≠ 0 := steady.size ▸ allocated
      simp only
      rw [ends_bind, ends_read]
      split
      · rename_i must
        rw [ends_bind]
        refine (staged'.startGrowth allocated' must).mono (fun _ s grown => ih grown.1 grown.2) ?_
        rintro failure _ rfl _
        exact staged'
      · cases free with
        | some offset => exact staged'
        | none =>
          simp only
          rw [ends_bind]
          exact (staged'.linkOverflow (steady.size ▸ bound) ready.worked.settled).ends
            fun _ _ linked => linked

theorem claim (staged : Staged scheme way start (table, env)) :
    Leads (claim scheme key hash) (table, env) fun s => Staged scheme way start s := by
  unfold Table.claim Leads
  rw [ends_bind]
  refine staged.reserve.mono (fun _ s made => claimWithin _ made.1 made.2) ?_
  rintro failure _ rfl _
  exact staged

/-- The slot that a claim has answered is written. -/
theorem stores (staged : Staged scheme way start (table, env)) (hash : UInt64)
    (keys : KeyEnv δ) (run : scheme.hashKey key table.seed env.keys = (.ok hash, keys)) :
    Ends (Table.claim scheme key hash) (table, { env with keys })
      (fun claim s => Map.Stores scheme key hash (Staged scheme way start)
        (fun _ => Staged scheme way start) s claim)
      (fun failure s => ¬ failure.Aborts → Staged scheme way start s) := by
  have held := Rules.any_heldBy scheme
  have hashes : scheme.Hashes key table.seed hash := ⟨env.keys, congrArg Prod.fst run⟩
  refine (Ends.both (claim_offers staged.sound) (staged.asked keys).claim).mono ?_
    fun _ _ failed => failed.2
  rintro (pos | ⟨index, offset⟩) s ⟨offered, staged'⟩
  · intro f
    have here : pos.era = .current := by
      cases offered
      rfl
    obtain ⟨top, entry, holds, path⟩ := offered.overwritten hashes f
    have run := (ends_updateEntry holds (Map.overwrite scheme key f)).mp (ends_run (s := s))
    refine (ends_updateEntry holds _).mpr (staged'.stage (.overwritten run) rfl ?_
      (path.sound held staged.sound))
    obtain ⟨_, index, offset⟩ := pos
    obtain rfl := here
    exact .quietly _ (alike_refl _)
  · intro value
    have sound := (offered.filled hashes value).sound held staged.sound
    cases offered with
    | vacant between drifts seed allocated worked calm absent room =>
      obtain ⟨_, _, roomed, _⟩ := roomed_of_worked held (drifts.path.sound held staged.sound)
        allocated worked room (seed ▸ hashes)
      exact staged'.stage (.filled roomed.first rfl) rfl (.quietly _ (alike_refl _)) sound

theorem updateEntry (staged : Staged scheme way start (table, env)) (pos : Position)
    (f : V → V) :
    Leads (updateEntry pos fun entry => { entry with value := f entry.value }) (table, env)
      fun s => Staged scheme way start s := by
  refine updateEntry_leads_of staged.sound fun top entry holds => ?_
  have run := (ends_updateEntry holds fun entry => { entry with value := f entry.value }).mp
    (ends_run (s := (table, env)))
  exact staged.stage (.revalued run) rfl (.quietly _ (holds.alike rfl))
    (staged.sound.put holds { entry with value := f entry.value } fun _ _ _ => id).1

theorem takeOut (staged : Staged scheme way start (table, env)) (called : way = some .delete)
    {index offset : Nat} {top : UInt8} {entry : Entry K V}
    (holds : table.Holds ⟨.current, index, offset⟩ top entry) :
    Yields (takeOut index offset) (table, env) fun _ s => Staged scheme way start s := by
  obtain ⟨sound, one⟩ := staged.sound.without holds
  have filled : table.count ≠ 0 := by
    rw [staged.sound.count, one.length_eq]
    exact Nat.succ_ne_zero _
  refine ((takeOut_yields filled index offset env).also ends_run).ends ?_
  rintro _ ⟨_, env'⟩ ⟨taken, run⟩
  have does : Does scheme way (table, env) _ := .taken called run
  simp only at taken
  generalize told : env'.log = log at taken
  cases taken with
  | some more => exact staged.stage does told (.quietly _ (alike_refl _)) sound
  | last empty seed =>
    exact staged.stage does told (.aside [.emptied] (by simp [Event.marks]) (alike_refl _))
      (sound.reseeded (sound.entries_eq_nil.mp empty) seed)

theorem delete (staged : Staged scheme way start (table, env)) (called : way = some .delete)
    (key : K) (hash : UInt64) :
    Leads (delete scheme key hash) (table, env) fun s => Staged scheme way start s := by
  by_cases empty : table.count = 0
  · exact (ends_delete_of_empty empty).mpr staged
  have allocated := staged.sound.allocated_of_filled empty
  unfold Table.delete Leads
  simp only [ends_bind, ends_read]
  rw [if_neg empty]
  apply search_ends (Rules.any_heldBy scheme) staged.sound
    (staged.sound.bucketIndex_lt allocated hash) (fun s => Staged scheme way start s)
    ((staged.growWork _).mono (fun _ _ staged' => staged'.asked)
      fun _ _ aborts calm => absurd aborts calm)
    fun failure s _ balks calm => absurd balks.aborts calm
  rintro ⟨between, env'⟩ (offset | free) ready staged' answers
  · obtain ⟨entry, holds, _⟩ := answers
    have exponent : between.exponent = table.exponent := ready.exponent
    rw [← exponent]
    exact ends_found holds ((staged'.takeOut called holds).ends fun _ _ taken => taken)
  · exact staged'

theorem clear (staged : Staged scheme way start (table, env)) (called : way = some .clear) :
    Yields clear (table, env) fun _ s => Staged scheme way start s := by
  refine ((clear_ends table env).also ends_run).ends ?_
  rintro _ ⟨after, env'⟩ ⟨⟨_, same⟩ | ⟨_, seed, rfl, log⟩, run⟩
  · exact same ▸ staged
  · exact staged.stage (.cleared called run) log (.cleared called rfl)
      (staged.sound.cleared seed)

theorem retain (staged : Staged scheme way start (table, env)) (called : way = some .retain)
    (f : K → V → StateM ρ (V × Except String Bool)) (own : ρ) :
    Leads (retain scheme f) ((table, env), own) fun s => Staged scheme way start s.1 := by
  unfold Leads
  rw [retain_eq, ends_bind, ends_first, ends_read]
  split
  · exact staged
  · rw [ends_bind, ends_first]
    refine (Ends.both staged.finishGrowth (finishGrowth_ends (Rules.any_heldBy scheme)
      staged.sound env)).mono ?_ fun failure s failed calm => absurd failed.1 calm
    rintro _ ⟨between, env'⟩ ⟨staged', _, idle⟩
    refine ((retainSettled_ends f staged'.sound idle env' own).both ends_run).mono ?_ ?_
    · rintro _ ⟨⟨after, env''⟩, own'⟩ ⟨⟨left, _, retained⟩, run⟩
      have log : env''.log = env'.log := by
        by_cases none : left = []
        · obtain rfl : env'' = _ := (retained.reseeded none).2
          rfl
        · obtain rfl : env'' = _ := (retained.standing none).2
          rfl
      refine staged'.stage (.retained called run) log (.quietly _ ?_) retained.sound
      rw [idle, retained.idle]
      exact .none
    · rintro failure s ⟨⟨_, text, _, rfl, _⟩, _⟩ calm
      exact absurd ⟨_, rfl⟩ calm

end Staged

/-- The operations of a table lead it from stage to stage. -/
theorem conducts_staged (scheme : KeyScheme K δ) (way : Option Withdrawal) :
    Table.Conducts scheme way (Staged scheme way : Table K V × Env δ → _ → Prop) where
  trans first second := ⟨first.stages.trans second.stages, second.sound⟩
  sound staged _ := staged.sound
  asks sound keys := Staged.asked ⟨.refl, sound⟩ keys
  claims sound hash keys run := Staged.stores ⟨.refl, sound⟩ hash keys run
  updates sound pos f := Staged.updateEntry ⟨.refl, sound⟩ pos f
  finishes sound := (Staged.finishGrowth ⟨.refl, sound⟩).mono (fun _ _ => id)
    fun _ _ aborts calm => absurd aborts calm
  deletes called sound key hash := Staged.delete ⟨.refl, sound⟩ called key hash
  clears called sound := (Staged.clear ⟨.refl, sound⟩ called).ends fun _ _ => id
  retains called sound f own := Staged.retain ⟨.refl, sound⟩ called f own

end Table

/-- Between two calls the books of a table are in order, and a call keeps them so stage by stage: it
starts a resize only where none is in flight, and drops an old array only once nothing is left in it
to move. -/
theorem resizes_bookkept {scheme : KeyScheme K δ} {map : Map K V}
    (reachable : Reachable scheme map) :
    map.table.Bookkept ∧ ∀ (call : Call K V ρ) (env : Env δ) (own : ρ),
      Leads (call.attempt scheme) ((map, env), own) fun s =>
        Table.Stages scheme call.withdrawal? (map.table, env) (s.1.1.table, s.1.2) := by
  obtain ⟨sound, free⟩ := reachable.intact
  refine ⟨sound.bookkept, fun call env own => ?_⟩
  exact (Call.attempt_leads_of (Table.conducts_staged scheme _) sound free).mono
    fun s led => led.table.stages

/-- A doubling is in flight, and is ended before all values are handed out. -/
theorem resizes_bookkept_amid_doubling : ∃ (map after : Map UInt64 Nat) (env : Env Unit),
    map.table.resize.isSome = true ∧ map.table.Bookkept ∧ after.table.resize = none ∧
    env.log = [.growthComplete 3 27 false] ∧
    Table.Stages (Key.word {}) (Call.sweep [] : Call UInt64 Nat Unit).withdrawal?
      (map.table, .ample {}) (after.table, env) := by
  have made : Reachable (V := Nat) (Key.word {}) _ := .made .empty (.ample {}) rfl
  obtain ⟨map, grown, growing, answered, idle, log⟩ : ∃ map : Map UInt64 Nat,
      Reachable (Key.word {}) map ∧ map.table.resize.isSome = true ∧
      (Call.attempt (Key.word {}) (.sweep []) ((map, .ample {}), ())).1.toOption.isSome = true ∧
      (Call.attempt (Key.word {}) (.sweep []) ((map, .ample {}), ())).2.1.1.table.resize = none ∧
      (Call.attempt (Key.word {}) (.sweep []) ((map, .ample {}), ())).2.1.2.log =
        [.growthComplete 3 27 false] :=
    ⟨_, made.after (.extend ((List.range 27).map fun n => (n.toUInt64, n))) (.ample {}) ()
      (by decide +kernel), by decide +kernel⟩
  obtain ⟨books, stages⟩ := resizes_bookkept grown
  refine ⟨map, _, _, growing, books, idle, log, ?_⟩
  exact (stages (.sweep []) (.ample {}) ()).after rfl (calm_of_isSome answered)

end GradualMap
