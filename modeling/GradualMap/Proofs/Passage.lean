import GradualMap.Proofs.Call
import GradualMap.Proofs.Keys
import GradualMap.Proofs.Path

/-!
What calls do to the table of a map they do through its operations. A relation between tables that
each operation leads along, every call leads along. So every call that does not abort takes its
table along a path of steps. What every step keeps, and every new map has, therefore holds of all
maps that calls lead to, under any key scheme.
-/

namespace GradualMap

open GradualMap.Action

variable {K V δ ρ : Type}

namespace Map

variable {scheme : KeyScheme K δ} {key : K} {map : Map K V} {env : Env δ} {own : ρ}

/-- What a table comes to once the slot that a claim answers is written: an entry found is written
over, whatever its new value, and a free slot gets a new entry. -/
def Stores (scheme : KeyScheme K δ) (key : K) (hash : UInt64)
    (written : Table K V × Env δ → Prop) (entered : V → Table K V × Env δ → Prop)
    (s : Table K V × Env δ) : Claim → Prop
  | .occupied pos =>
    ∀ f : V → V, Yields (Table.updateEntry pos (overwrite scheme key f)) s
      fun _ after => written after
  | .vacant index offset =>
    ∀ value : V, entered value (s.1.filled index offset hash ⟨key, value⟩, s.2)

section

variable {written fails : Table K V × Env δ → Prop} {entered : V → Table K V × Env δ → Prop}

/-- An insert hashes its key, claims a slot and stores the entry. -/
theorem insert?_ends_of (free : map.latch.held = false)
    (claims : ∀ hash keys, scheme.hashKey key map.table.seed env.keys = (.ok hash, keys) →
      Ends (Table.claim scheme key hash) (map.table, { env with keys })
        (fun claim s => Stores scheme key hash written entered s claim)
        (fun failure s => ¬ failure.Aborts → fails s))
    (refused : ∀ failure keys, scheme.hashKey key map.table.seed env.keys = (.error failure, keys) →
      fails (map.table, { env with keys })) (value : V) :
    Ends (insert? scheme key value) (map, env)
      (fun _ s => (written (s.1.table, s.2) ∨ entered value (s.1.table, s.2)) ∧
        s.1.latch.held = false)
      (fun failure s => ¬ failure.Aborts → fails (s.1.table, s.2) ∧ s.1.latch.held = false) := by
  unfold insert?
  rw [ends_bind, ends_read, ends_bind, ends_onKeys]
  refine ends_run.mono ?_ fun failure keys run _ => ⟨refused failure keys run, free⟩
  intro hash keys run
  rw [ends_writing free, ends_onTable, ends_bind]
  apply (claims hash keys run).mono
  · rintro (pos | ⟨index, offset⟩) s stores
    · simp only
      rw [ends_bind]
      exact (stores fun _ => value).ends fun _ _ h => ⟨.inl h, rfl⟩
    · simp only
      rw [ends_bind, Table.ends_fill]
      exact ⟨.inr (stores value), rfl⟩
  · exact fun failure s h calm => ⟨h calm, rfl⟩

theorem getOrInsert?_ends_of (free : map.latch.held = false)
    (claims : ∀ hash keys, scheme.hashKey key map.table.seed env.keys = (.ok hash, keys) →
      Ends (Table.claim scheme key hash) (map.table, { env with keys })
        (fun claim s => Stores scheme key hash written entered s claim)
        (fun failure s => ¬ failure.Aborts → fails s))
    (refused : ∀ failure keys, scheme.hashKey key map.table.seed env.keys = (.error failure, keys) →
      fails (map.table, { env with keys }))
    (default : StateM ρ (Except String V)) (f : V → V) :
    Ends (getOrInsert? scheme key default f) ((map, env), own)
      (fun _ s => (written (s.1.1.table, s.1.2) ∨ ∃ value, (default own).1 = .ok value ∧
        entered (f value) (s.1.1.table, s.1.2)) ∧ s.1.1.latch.held = false)
      (fun failure s => ¬ failure.Aborts →
        fails (s.1.1.table, s.1.2) ∧ s.1.1.latch.held = false) := by
  unfold getOrInsert?
  rw [ends_bind, ends_first, ends_read, ends_bind, ends_first, ends_onKeys]
  refine ends_run.mono ?_ fun failure keys run _ => ⟨refused failure keys run, free⟩
  intro hash keys run
  rw [ends_writingWith free, ends_bind, ends_first, ends_onTable]
  apply (claims hash keys run).mono
  · rintro (pos | ⟨index, offset⟩) s stores
    · simp only
      rw [ends_bind, ends_first, ends_onTable]
      exact (stores f).ends fun _ _ h => ⟨.inl h, rfl⟩
    · simp only
      rw [ends_bind, ends_second, ends_lift]
      cases answer : (default own).1 with
      | error text => exact fun calm => absurd ⟨_, rfl⟩ calm
      | ok value =>
        simp only
        rw [ends_bind, ends_first, ends_onTable, Table.ends_fill]
        exact ⟨.inr ⟨value, rfl, stores (f value)⟩, rfl⟩
  · exact fun failure s h calm => ⟨h calm, rfl⟩

end

theorem insert?_leads_of {post : Table K V × Env δ → Prop} (free : map.latch.held = false)
    (claims : ∀ hash keys, scheme.hashKey key map.table.seed env.keys = (.ok hash, keys) →
      Ends (Table.claim scheme key hash) (map.table, { env with keys })
        (fun claim s => Stores scheme key hash post (fun _ => post) s claim)
        (fun failure s => ¬ failure.Aborts → post s))
    (refused : ∀ failure keys, scheme.hashKey key map.table.seed env.keys = (.error failure, keys) →
      post (map.table, { env with keys })) (value : V) :
    Leads (insert? scheme key value) (map, env)
      fun s => post (s.1.table, s.2) ∧ s.1.latch.held = false :=
  (insert?_ends_of free claims refused value).mono
    (fun _ _ stored => ⟨stored.1.elim (fun h => h) fun h => h, stored.2⟩) fun _ _ left => left

theorem getOrInsert?_leads_of {post : Table K V × Env δ → Prop} (free : map.latch.held = false)
    (claims : ∀ hash keys, scheme.hashKey key map.table.seed env.keys = (.ok hash, keys) →
      Ends (Table.claim scheme key hash) (map.table, { env with keys })
        (fun claim s => Stores scheme key hash post (fun _ => post) s claim)
        (fun failure s => ¬ failure.Aborts → post s))
    (refused : ∀ failure keys, scheme.hashKey key map.table.seed env.keys = (.error failure, keys) →
      post (map.table, { env with keys }))
    (default : StateM ρ (Except String V)) (f : V → V) :
    Leads (getOrInsert? scheme key default f) ((map, env), own)
      fun s => post (s.1.1.table, s.1.2) ∧ s.1.1.latch.held = false :=
  (getOrInsert?_ends_of free claims refused default f).mono
    (fun _ _ stored => ⟨stored.1.elim (fun h => h) fun ⟨_, _, h⟩ => h, stored.2⟩)
    fun _ _ left => left

/-- A removal from a map with entries hashes its key and deletes the entry. -/
theorem removePair?_leads_of {post : Table K V × Env δ → Prop} (free : map.latch.held = false)
    (deletes : ∀ hash keys, map.isEmpty = false →
      scheme.hashKey key map.table.seed env.keys = (.ok hash, keys) →
      Leads (Table.delete scheme key hash) (map.table, { env with keys }) post)
    (empty : ∀ keys, map.isEmpty = true → post (map.table, { env with keys }))
    (refused : ∀ failure keys, scheme.hashKey key map.table.seed env.keys = (.error failure, keys) →
      post (map.table, { env with keys })) :
    Leads (removePair? scheme key : MapAction K V δ (Option (K × V))) (map, env)
      fun s => post (s.1.table, s.2) ∧ s.1.latch.held = false := by
  unfold removePair? Leads
  rw [ends_bind, ends_read]
  split
  · rename_i bare
    rw [ends_bind, ends_onKeys]
    exact ends_run.mono (fun _ keys _ => ⟨empty keys bare, free⟩)
      fun failure keys _ _ => ⟨empty keys bare, free⟩
  · rename_i filled
    rw [ends_bind, ends_read, ends_bind, ends_onKeys]
    refine ends_run.mono ?_ fun failure keys run _ => ⟨refused failure keys run, free⟩
    intro hash keys run
    rw [ends_writing free, ends_onTable]
    exact Ends.mono (deletes hash keys (Bool.eq_false_iff.mpr filled) run) (fun _ s h => ⟨h, rfl⟩)
      fun failure s h calm => ⟨h calm, rfl⟩

end Map

/-- The ways in which entries are taken out of a table. -/
inductive Table.Withdrawal where
  | delete
  | retain
  | clear
  deriving DecidableEq

/-- Where the operations of a table lead, unless they abort. Of those that take entries out, only
the one of the given way counts. -/
structure Table.Conducts (scheme : KeyScheme K δ) (way : Option Table.Withdrawal)
    (leads : Table K V × Env δ → Table K V × Env δ → Prop) : Prop where
  trans {before between after : Table K V × Env δ} :
    leads before between → leads between after → leads before after
  sound {before after : Table K V × Env δ} :
    leads before after → before.1.Sound Rules.any → after.1.Sound Rules.any
  asks {table : Table K V} {env : Env δ} :
    table.Sound Rules.any → ∀ keys, leads (table, env) (table, { env with keys })
  claims {table : Table K V} {env : Env δ} {key : K} : table.Sound Rules.any →
    ∀ hash keys, scheme.hashKey key table.seed env.keys = (.ok hash, keys) →
      Ends (claim scheme key hash) (table, { env with keys })
        (fun claim s =>
          Map.Stores scheme key hash (leads (table, env)) (fun _ => leads (table, env)) s claim)
        (fun failure s => ¬ failure.Aborts → leads (table, env) s)
  updates {table : Table K V} {env : Env δ} : table.Sound Rules.any →
    ∀ (pos : Position) (f : V → V),
      Leads (updateEntry pos fun entry => { entry with value := f entry.value }) (table, env)
        (leads (table, env))
  finishes {table : Table K V} {env : Env δ} : table.Sound Rules.any →
    Leads (finishGrowth scheme) (table, env) (leads (table, env))
  deletes {table : Table K V} {env : Env δ} : way = some .delete → table.Sound Rules.any →
    ∀ key hash, Leads (delete scheme key hash) (table, env) (leads (table, env))
  clears {table : Table K V} {env : Env δ} : way = some .clear → table.Sound Rules.any →
    Leads clear (table, env) (leads (table, env))
  retains {table : Table K V} {env : Env δ} {ρ : Type} : way = some .retain →
    table.Sound Rules.any → ∀ (f : K → V → StateM ρ (V × Except String Bool)) (own : ρ),
      Leads (retain scheme f) ((table, env), own) fun s => leads (table, env) s.1

/-- The table and its log have gone along a path of steps. -/
abbrev Table.Treads (scheme : KeyScheme K δ) (before after : Table K V × Env δ) : Prop :=
  Path scheme (before.1, before.2.log) (after.1, after.2.log)

theorem Table.conducts_treads (scheme : KeyScheme K δ) (way : Option Table.Withdrawal) :
    Table.Conducts scheme way (Table.Treads scheme : Table K V × Env δ → _ → Prop) where
  trans := .trans
  sound path := path.sound (Rules.any_heldBy scheme)
  asks _ _ := .refl
  claims {table env key} sound hash keys run := by
    have hashes : scheme.Hashes key table.seed hash := ⟨env.keys, congrArg Prod.fst run⟩
    refine (Table.claim_offers sound).mono ?_ fun _ _ drifts calm => (drifts calm).path
    rintro (pos | ⟨index, offset⟩) s offered
    · intro f
      obtain ⟨top, entry, holds, path⟩ := offered.overwritten hashes f
      exact (Table.ends_updateEntry holds _).mpr path
    · exact offered.filled hashes
  updates := Table.updateEntry_leads
  finishes sound := (Table.finishGrowth_ends (Rules.any_heldBy scheme) sound _).mono
    (fun _ _ finished => finished.1.path) fun _ _ aborts calm => absurd aborts calm
  deletes _ sound _ _ := Table.delete_leads sound
  clears _ _ := Table.clear_leads _ _
  retains _ sound f own := (Table.retain_leads sound f own).mono fun _ => And.left

namespace Map

/-- The table of a map was led somewhere, and its latch is free again. -/
structure Led (leads : Table K V × Env δ → Table K V × Env δ → Prop)
    (before after : Map K V × Env δ) : Prop where
  table : leads (before.1.table, before.2) (after.1.table, after.2)
  free : after.1.latch.held = false

variable {scheme : KeyScheme K δ} {way : Option Table.Withdrawal} {key : K} {map : Map K V}
  {env : Env δ} {own : ρ}
  {leads : Table K V × Env δ → Table K V × Env δ → Prop}

theorem Led.path {before after : Map K V × Env δ} (led : Led (Table.Treads scheme) before after) :
    Table.Path scheme (before.1.table, before.2.log) (after.1.table, after.2.log) :=
  led.table

section

variable (conducts : Table.Conducts scheme way leads)
include conducts

theorem Led.trans {before between after : Map K V × Env δ} (first : Led leads before between)
    (second : Led leads between after) : Led leads before after :=
  ⟨conducts.trans first.table second.table, second.free⟩

theorem led_of_asked (sound : map.table.Sound Rules.any) (free : map.latch.held = false)
    (keys : KeyEnv δ) : Led leads (map, env) (map, { env with keys }) :=
  ⟨conducts.asks sound keys, free⟩

theorem insert?_leads (sound : map.table.Sound Rules.any) (free : map.latch.held = false)
    (value : V) : Leads (insert? scheme key value) (map, env) (Led leads (map, env)) :=
  (insert?_leads_of free (conducts.claims sound) (fun _ keys _ => conducts.asks sound keys)
    value).mono fun _ led => ⟨led.1, led.2⟩

theorem getOrInsert?_leads (sound : map.table.Sound Rules.any) (free : map.latch.held = false)
    (default : StateM ρ (Except String V)) (f : V → V) :
    Leads (getOrInsert? scheme key default f) ((map, env), own)
      fun s => Led leads (map, env) s.1 :=
  (getOrInsert?_leads_of free (conducts.claims sound) (fun _ keys _ => conducts.asks sound keys)
    default f).mono fun _ led => ⟨led.1, led.2⟩

theorem updateEntry_leads (sound : map.table.Sound Rules.any) (free : map.latch.held = false)
    (pos : Position) (f : V → V) :
    Leads (onTable (Table.updateEntry pos fun entry => { entry with value := f entry.value }))
      (map, env) (Led leads (map, env)) := by
  unfold Leads
  rw [ends_onTable]
  exact Ends.mono (conducts.updates sound pos f) (fun _ s led => ⟨led, free⟩)
    fun failure s led calm => ⟨led calm, free⟩

theorem adjust_leads (sound : map.table.Sound Rules.any) (free : map.latch.held = false)
    (f : V → V) : Leads (adjust scheme key f) (map, env) (Led leads (map, env)) := by
  unfold adjust Leads
  rw [ends_bind, ends_read, ends_bind, ends_onKeys]
  refine ends_run.mono ?_ fun failure keys _ _ => led_of_asked conducts sound free keys
  rintro (_ | pos) keys _
  · exact led_of_asked conducts sound free keys
  · have asked : Led leads (map, env) (map, { env with keys }) :=
      led_of_asked conducts sound free keys
    simp only
    rw [ends_bind]
    exact Ends.mono (updateEntry_leads conducts sound free pos f)
      (fun _ s led => asked.trans conducts led)
      fun failure s led calm => asked.trans conducts (led calm)

theorem removePair?_leads (called : way = some .delete) (sound : map.table.Sound Rules.any)
    (free : map.latch.held = false) :
    Leads (removePair? scheme key : MapAction K V δ (Option (K × V))) (map, env)
      (Led leads (map, env)) := by
  have asked (keys : KeyEnv δ) : leads (map.table, env) (map.table, { env with keys }) :=
    conducts.asks sound keys
  refine (removePair?_leads_of free (fun hash keys _ _ => ?_) (fun keys _ => asked keys)
    fun _ keys _ => asked keys).mono fun _ led => ⟨led.1, led.2⟩
  exact (conducts.deletes called sound key hash).mono fun _ led => conducts.trans (asked keys) led

theorem clear_leads (called : way = some .clear) (sound : map.table.Sound Rules.any)
    (free : map.latch.held = false) :
    Leads (clear : MapAction K V δ Unit) (map, env) (Led leads (map, env)) := by
  unfold clear Leads
  rw [ends_writing free, ends_onTable]
  exact Ends.mono (conducts.clears called sound) (fun _ s led => ⟨led, rfl⟩)
    fun failure s led calm => ⟨led calm, rfl⟩

theorem retain_leads (called : way = some .retain) (sound : map.table.Sound Rules.any)
    (free : map.latch.held = false) (f : K → V → StateM ρ (V × Except String Bool)) :
    Leads (retain scheme f) ((map, env), own) fun s => Led leads (map, env) s.1 := by
  unfold Leads
  rw [ends_retain free]
  exact Ends.mono (conducts.retains called sound f own) (fun _ _ led => ⟨led, rfl⟩)
    fun failure _ led calm => ⟨led calm, rfl⟩

theorem extend_leads (pairs : List (K × V)) : ∀ {map : Map K V} {env : Env δ},
    map.table.Sound Rules.any → map.latch.held = false →
    Leads (extend scheme pairs) (map, env) (Led leads (map, env)) := by
  induction pairs with
  | nil =>
    intro map env sound free
    exact led_of_asked conducts sound free env.keys
  | cons pair pairs ih =>
    intro map env sound free
    change Leads (do discard (insert scheme pair.1 pair.2); extend scheme pairs) _ _
    unfold Leads
    rw [ends_bind, ends_discard]
    apply Ends.mono (insert?_leads conducts sound free pair.2).orAbort
    · intro _ s led
      have sound' := conducts.sound led.table sound
      exact (ih sound' led.free).mono fun s' led' => led.trans conducts led'
    · exact fun failure s led => led

end

end Map

namespace Sweep

variable {scheme : KeyScheme K δ} {way : Option Table.Withdrawal} {map : Map K V} {env : Env δ}
  {leads : Table K V × Env δ → Table K V × Env δ → Prop}
  (conducts : Table.Conducts scheme way leads)
include conducts

theorem ofMap_leads (sound : map.table.Sound Rules.any) (free : map.latch.held = false) :
    Leads (ofMap scheme : MapAction K V δ Sweep) (map, env) (Map.Led leads (map, env)) := by
  apply ofMap_ends free
  apply Ends.mono (conducts.finishes sound)
  · intro _ s led word keys
    exact ⟨conducts.trans led (conducts.asks (conducts.sound led sound) keys), rfl⟩
  · exact fun failure s led calm => ⟨led calm, rfl⟩

theorem next_leads (sound : map.table.Sound Rules.any) (free : map.latch.held = false) (f : V → V)
    (sweep : Sweep) : Leads (next f sweep) (map, env) (Map.Led leads (map, env)) := by
  have same : Map.Led leads (map, env) (map, env) :=
    Map.led_of_asked conducts sound free env.keys
  unfold next Leads
  split
  · exact same
  · rw [ends_bind, Map.ends_read]
    generalize locate map.table sweep.buckets sweep.pending = answer
    obtain ⟨_ | pos, buckets, pending⟩ := answer
    · exact same
    · simp only
      rw [ends_bind]
      exact Map.updateEntry_leads conducts sound free pos f

theorem through_leads (writes : List (V → V)) :
    ∀ {map : Map K V} {env : Env δ} {sweep : Sweep}, map.table.Sound Rules.any →
      map.latch.held = false →
      Leads (through writes sweep) (map, env) (Map.Led leads (map, env)) := by
  induction writes with
  | nil =>
    intro map env sweep sound free
    exact Map.led_of_asked conducts sound free env.keys
  | cons f writes ih =>
    intro map env sweep sound free
    unfold through Leads
    rw [ends_bind]
    apply Ends.mono (next_leads conducts sound free f sweep)
    · rintro ⟨_ | pair, sweep'⟩ s led
      · exact led
      · simp only
        rw [ends_bind]
        have sound' := conducts.sound led.table sound
        exact Ends.mono (ih sound' led.free) (fun _ s' led' => led.trans conducts led')
          fun failure s' led' calm => led.trans conducts (led' calm)
    · exact fun failure s led => led

end Sweep

namespace Call

variable {scheme : KeyScheme K δ} {map : Map K V} {env : Env δ} {own : ρ}

/-- How the call takes entries out, if it does. -/
def withdrawal? : Call K V ρ → Option Table.Withdrawal
  | .remove _ | .removePair _ => some .delete
  | .retain _ => some .retain
  | .clear => some .clear
  | _ => none

theorem attempt_leads_of {call : Call K V ρ}
    {leads : Table K V × Env δ → Table K V × Env δ → Prop}
    (conducts : Table.Conducts scheme call.withdrawal? leads)
    (sound : map.table.Sound Rules.any) (free : map.latch.held = false) :
    Leads (call.attempt scheme) ((map, env), own) fun s => Map.Led leads (map, env) s.1 := by
  have reads {α : Type} {act : Map K V → Action (KeyEnv δ) α} {answer : α → Answer K V} :
      Leads (first do return answer (← Map.onKeys (act (← Map.read)))) ((map, env), own)
        fun s => Map.Led leads (map, env) s.1 :=
    ends_reading.mpr (ends_run.mono (fun _ keys _ => Map.led_of_asked conducts sound free keys)
      fun _ keys _ _ => Map.led_of_asked conducts sound free keys)
  cases call with
  | insert key value =>
    exact leads_map.mpr (ends_first.mpr (Map.insert?_leads conducts sound free value))
  | getOrInsert key default f =>
    exact leads_map.mpr (Map.getOrInsert?_leads conducts sound free _ f)
  | get key =>
    unfold attempt
    exact reads
  | getPair key =>
    unfold attempt
    exact reads
  | contains key =>
    unfold attempt
    exact reads
  | adjust key f => exact leads_map.mpr (ends_first.mpr (Map.adjust_leads conducts sound free f))
  | remove key =>
    exact leads_map.mpr (ends_first.mpr
      (leads_map.mpr (Map.removePair?_leads conducts rfl sound free)))
  | removePair key =>
    exact leads_map.mpr (ends_first.mpr (Map.removePair?_leads conducts rfl sound free))
  | extend pairs =>
    exact leads_map.mpr (ends_first.mpr (Map.extend_leads conducts pairs sound free))
  | clear => exact leads_map.mpr (ends_first.mpr (Map.clear_leads conducts rfl sound free))
  | retain f => exact leads_map.mpr (Map.retain_leads conducts rfl sound free _)
  | sweep writes =>
    unfold attempt Leads
    rw [ends_first, ends_bind]
    apply Ends.mono (Sweep.ofMap_leads conducts sound free)
    · intro sweep s led
      rw [ends_bind]
      have sound' := conducts.sound led.table sound
      exact Ends.mono (Sweep.through_leads conducts writes sound' led.free)
        (fun _ s' led' => led.trans conducts led')
        fun failure s' led' calm => led.trans conducts (led' calm)
    · exact fun failure s led => led
  | list =>
    unfold attempt
    exact reads
  | len => exact Map.led_of_asked conducts sound free env.keys

theorem attempt_leads (sound : map.table.Sound Rules.any) (free : map.latch.held = false)
    (call : Call K V ρ) :
    Leads (call.attempt scheme) ((map, env), own)
      fun s => Map.Led (Table.Treads scheme) (map, env) s.1 :=
  attempt_leads_of (Table.conducts_treads scheme _) sound free

end Call

namespace Reachable

variable {scheme : KeyScheme K δ} {map : Map K V}

/-- Between two calls a table is what its tags say, and nobody writes it. -/
theorem intact (reachable : Reachable scheme map) :
    map.table.Sound Rules.any ∧ map.latch.held = false := by
  induction reachable with
  | made origin env run =>
    have made := (origin.make?_ends Rules.any env).of_ok run
    exact ⟨made.sound.table, made.sound.free⟩
  | called call _ run calm ih =>
    have led := (call.attempt_leads ih.1 ih.2).after run calm
    exact ⟨led.path.sound (Rules.any_heldBy scheme) ih.1, led.free⟩

theorem keeps {keeps : Table K V → Prop}
    (fresh : ∀ map : Map K V, (∀ rules, map.Fresh rules) → keeps map.table)
    (step : ∀ {before after : Table K V × List Event}, before.1.Sound Rules.any →
      Table.Step scheme before after → keeps before.1 → keeps after.1)
    (reachable : Reachable scheme map) : keeps map.table := by
  induction reachable with
  | made origin env run => exact fresh _ fun rules => (origin.make?_ends rules env).of_ok run
  | called call reachable run calm ih =>
    obtain ⟨sound, free⟩ := reachable.intact
    exact ((call.attempt_leads sound free).after run calm).path.keeps step sound ih

end Reachable

/-- The twenty-seventh entry doubles a table of four chains. -/
theorem reachable_amid_doubling : ∃ map : Map UInt64 Nat, Reachable (Key.word {}) map ∧
    map.table.exponent = 3 ∧ map.table.resize.isSome = true ∧ map.table.count = 27 := by
  have made : Reachable (V := Nat) (Key.word {}) _ := .made .empty (.ample {}) rfl
  exact ⟨_, made.after (.extend ((List.range 27).map fun n => (n.toUInt64, n))) (.ample {}) ()
    (by decide +kernel), by decide +kernel⟩

end GradualMap
