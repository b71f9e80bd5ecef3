import GradualMap.Proofs.Rounds

/-!
What an insert doubles a table for. A claim looks for its key before it looks at the load, so that a
write over a key that is there never starts a resize. After the start of a resize the key is looked
for once more; as long as the comparisons stand by their answers it is not found then either. What
raises the exponent is therefore a new entry, and one that the table as it was is too small for.
-/

namespace GradualMap

open GradualMap.Action

variable {K V δ ρ : Type}

/-- A comparison that was answered is not answered otherwise later, and no key is the same as a
stray. Nothing is said of hashes. Keys that come to be the same only while a resize is started for
one of them could double a table for an overwrite. -/
structure KeyScheme.Steadfast (scheme : KeyScheme K δ) : Prop where
  once : ∀ {a b : K}, scheme.Judges a b true → ¬ scheme.Judges a b false
  known : ∀ {a b : K}, scheme.Judges a b true → ¬ scheme.Judges b b false

theorem KeyScheme.Agrees.steadfast {scheme : KeyScheme K δ} {reading : Reading K}
    (agrees : scheme.Agrees reading) (apart : reading.StraysApart) : scheme.Steadfast where
  once := by
    intro a b yes no
    have same := agrees.judges yes
    rw [← agrees.judges no] at same
    cases same
  known := by
    intro a b yes stray
    have known := (apart a b (agrees.judges yes).symm).2
    rw [← agrees.judges stray] at known
    cases known

/-- An entry keeps its hash byte, unless it is a stray. -/
theorem Routing.Routes.byte {routing : Routing} {scheme : KeyScheme K δ} {top : UInt8} {key : K}
    {routed : Half × UInt8} (routes : routing.Routes scheme top key routed) :
    routed.2 = top ∨ scheme.Judges key key false := by
  obtain ⟨env, run⟩ := routes
  have kept : Ends (routing.route scheme top key) env
      (fun routed _ => routed.2 = top ∨ scheme.Judges key key false) fun _ _ => True := by
    unfold Routing.route
    split
    · exact .inl rfl
    · rw [ends_bind]
      refine ends_run.mono (fun hash env' _ => ?_) fun _ _ _ => trivial
      rw [ends_bind]
      refine KeyScheme.selfEqual_ends.mono (fun self _ judged => ?_) fun _ _ _ => trivial
      cases self with
      | true => exact .inl rfl
      | false =>
        rcases judged with judges | ⟨_, taken⟩
        · exact .inr judges
        · cases taken
  exact kept.of_ok run

/-- A search of the chain comes on no entry that is judged the same as the key. -/
def Chain.Misses (scheme : KeyScheme K δ) (key : K) (hash : UInt64) (chain : Chain K V) : Prop :=
  ∀ item ∈ chain.live, item.1 = topHash hash → ¬ scheme.Judges key item.2.key true

namespace Table

variable {scheme : KeyScheme K δ} {key : K} {hash : UInt64} {table : Table K V} {env : Env δ}
  {before between after : Table K V × List Event}

/-- Nor will it come on one that a resize in flight has still to bring. -/
structure Misses (scheme : KeyScheme K δ) (key : K) (hash : UInt64) (table : Table K V) :
    Prop where
  current : (table.current.chainAt (hash.toNat % table.current.size)).Misses scheme key hash
  former : ∀ resize, table.resize = some resize →
    (resize.array.chainAt (hash.toNat % resize.array.size)).Misses scheme key hash

/-- All entries are still to be moved when a resize starts. -/
theorem misses_started (steadfast : scheme.Steadfast) (sound : table.Sound Rules.any)
    (allocated : table.current.size ≠ 0) (idle : table.resize = none)
    (absent : table.Located scheme key hash none) : table.started.Misses scheme key hash := by
  have located := (sound.located_none (settled_of_idle idle _)).mp absent
  rw [bucketIndex, ← sound.size_eq allocated] at located
  constructor
  · simp [Chain.Misses, started]
  · rintro _ ⟨⟩ item mem byte judges
    exact steadfast.once judges (located item mem byte)

/-- The chain that the hash leads to receives entries from the old chain that it led to, and
those are under the hash bytes they had, but for strays. -/
theorem Shift.misses (steadfast : scheme.Steadfast) (sound : before.1.Sound Rules.any)
    (shift : Shift scheme before after) (misses : before.1.Misses scheme key hash) :
    after.1.Misses scheme key hash := by
  cases shift with
  | @move table after log resize old moved growing bound waits carried dealt =>
    obtain ⟨array, growing', size, others, vacated⟩ := dealt.vacated resize growing
    have waiting := misses.former resize growing
    constructor
    · rw [dealt.size]
      by_cases target : ∃ half, (resize.routing table.seed).Uses half ∧
          hash.toNat % table.current.size = (resize.routing table.seed).target old half
      · obtain ⟨half, uses, here⟩ := target
        have fed : hash.toNat % resize.array.size = old := by
          rw [← (sound.resizing resize growing).mod_mod, here]
          exact Resize.target_mod bound table.seed half
        intro item mem byte judges
        rw [here, Chain.live, (dealt.filled half uses).row.live, List.nil_append] at mem
        obtain ⟨source, known, same, routes⟩ := mem_of_forall₂ carried _ (mem_received.mp mem)
        simp only at same
        rw [same] at judges
        rcases routes.byte with kept | stray
        · exact waiting source (fed.symm ▸ known) (kept.symm.trans byte) judges
        · exact steadfast.known judges stray
      · rw [dealt.others _ fun half uses here => target ⟨half, uses, here⟩]
        exact misses.current
    · intro resize' growing''
      obtain rfl := Option.some.inj (growing'.symm.trans growing'')
      by_cases here : hash.toNat % resize.array.size = old
      · intro item mem
        rw [size, here, Chain.live, vacated.live] at mem
        cases mem
      · rw [size, others _ here]
        exact waiting
  | @advance _ _ resize _ growing _ _ _ =>
    constructor
    · exact misses.current
    · rintro _ ⟨⟩
      exact misses.former resize growing
  | finish growing all =>
    constructor
    · exact misses.current
    · rintro _ ⟨⟩

theorem Shifts.misses (steadfast : scheme.Steadfast) (sound : before.1.Sound Rules.any)
    (shifts : Shifts scheme before after) (misses : before.1.Misses scheme key hash) :
    after.1.Misses scheme key hash := by
  induction shifts with
  | refl => exact misses
  | tail shifts' shift ih =>
    exact shift.misses steadfast (Shifts.sound shifts' (Rules.any_heldBy scheme) sound).1 ih

theorem Misses.not_judges {offset : Nat} {entry : Entry K V} (misses : table.Misses scheme key hash)
    (sound : table.Sound Rules.any)
    (holds : table.Holds ⟨.current, bucketIndex hash table.exponent, offset⟩ (topHash hash) entry) :
    ¬ scheme.Judges key entry.key true := by
  obtain ⟨bound, slot⟩ := holds_current.mp holds
  rw [bucketIndex, ← sound.size_eq_of_lt bound] at slot
  exact misses.current (topHash hash, entry) (Row.mem_live.mpr (List.mem_of_getElem? slot)) rfl

/-- As many entries as before in as many chains. -/
structure Level (before after : Table K V) : Prop where
  count : after.count = before.count
  exponent : after.exponent = before.exponent

theorem Level.refl (table : Table K V) : Level table table :=
  ⟨rfl, rfl⟩

theorem Level.trans {before between after : Table K V} (first : Level before between)
    (second : Level between after) : Level before after :=
  ⟨second.count.trans first.count, second.exponent.trans first.exponent⟩

theorem Readied.level {index : Nat} {s s' : Table K V × Env δ} (ready : Readied scheme index s s')
    (sound : s.1.Sound Rules.any) : Level s.1 s'.1 := by
  obtain ⟨_, steady, _⟩ := ready.drifts sound
  exact ⟨steady.count, steady.exponent⟩

theorem Room.level {index offset : Nat} (room : Room index before offset after) :
    Level before.1 after.1 := by
  cases room <;> exact ⟨rfl, rfl⟩

/-- What a claim has come to for the size of a table. -/
def Paces (before : Table K V) : Claim → Table K V → Prop
  | .occupied _, after => Level before after
  | .vacant .., after => after.count = before.count ∧
      (after.exponent = before.exponent ∨ overloaded (before.count + 1) before.exponent = true)

theorem Level.paces {before between after : Table K V} {claim : Claim} (level : Level before between)
    (paces : between.Paces claim after) : before.Paces claim after := by
  cases claim with
  | occupied pos => exact level.trans paces
  | vacant index offset =>
    unfold Paces at paces ⊢
    rwa [level.count, level.exponent] at paces

/-- The key that was not there before the start of a resize is not there after it. -/
theorem started_paces (steadfast : scheme.Steadfast) (sound : table.Sound Rules.any)
    (roomy : table.Uncrowded) (allocated : table.current.size ≠ 0) (must : table.mustGrow = true)
    (absent : table.Located scheme key hash none) (rounds : Nat) (env : Env δ) :
    Ends (do startGrowth; claimWithin scheme key hash (rounds + 1)) (table, env)
      (fun claim s => table.Paces claim s.1)
      (fun failure s => ¬ failure.Aborts → s.1 = table) := by
  have idle := idle_of_mustGrow must
  rw [ends_bind]
  apply (startGrowth_ends sound allocated env).mono
  · rintro _ ⟨_, env'⟩ ⟨rfl, small, _⟩
    have sound' := sound.started idle (sound.size_eq allocated) small
    have misses := misses_started steadfast sound allocated idle absent
    apply started_round_ends (Rules.any_heldBy scheme) trivial sound roomy allocated idle small
    · exact fun failure s aborts calm => absurd aborts calm
    · exact fun failure s balks calm => absurd balks.aborts calm
    · intro s offset entry ready holds judges
      obtain ⟨sound'', _⟩ := ready.drifts sound'
      have misses' := ready.worked.shifts.misses steadfast sound' misses
      exact absurd judges (misses'.not_judges sound'' holds)
    · intro between s offset ready calm _ room
      have level := (ready.level sound').trans room.level
      constructor
      · exact level.count
      · rw [level.exponent]
        cases bigger : overloaded (table.count + 1) table.exponent with
        | true => exact .inr rfl
        | false => exact .inl (by simp [started, bigger])
  · rintro failure _ ⟨rfl, _⟩ _
    rfl

theorem claimWithin_paces (steadfast : scheme.Steadfast) (sound : table.Sound Rules.any)
    (roomy : table.Uncrowded) (allocated : table.current.size ≠ 0) (rounds : Nat) (env : Env δ) :
    Ends (claimWithin scheme key hash (rounds + 2)) (table, env)
      (fun claim s => table.Paces claim s.1)
      (fun failure s => ¬ failure.Aborts → Level table s.1) := by
  apply round_ends (Rules.any_heldBy scheme) sound allocated
  · exact growWork_stalls (Rules.any_heldBy scheme) sound _ _
      fun failure s aborts calm => absurd aborts calm
  · exact fun failure s _ balks calm => absurd balks.aborts calm
  · exact fun s offset entry ready _ _ => ready.level sound
  · intro s ready must absent
    obtain ⟨sound', roomy', allocated'⟩ := ready.onward sound roomy allocated
    apply (started_paces steadfast sound' roomy' allocated' must absent rounds s.2).mono
    · exact fun claim s' paces => (ready.level sound).paces paces
    · exact fun failure s' same calm => same calm ▸ ready.level sound
  · intro between s offset ready _ _ room
    have level := (ready.level sound).trans room.level
    exact ⟨level.count, .inl level.exponent⟩

theorem claim_paces (steadfast : scheme.Steadfast) (sound : table.Sound Rules.any)
    (roomy : table.Uncrowded) (env : Env δ) :
    Ends (claim scheme key hash) (table, env)
      (fun claim s => table.Paces claim s.1)
      (fun failure s => ¬ failure.Aborts → Level table s.1) := by
  unfold claim
  rw [ends_bind]
  apply (reserve_ends sound env).mono
  · rintro _ ⟨_, env'⟩ ⟨_, ⟨allocated, rfl⟩ | ⟨bare, rfl⟩⟩
    · exact claimWithin_paces steadfast sound roomy allocated _ env'
    · have level : Level table table.reserved := ⟨rfl, rfl⟩
      have allocated := allocated_reserved table
      apply (claimWithin_paces steadfast (sound.reserved bare).1 roomy allocated _ env').mono
      · exact fun claim s paces => level.paces paces
      · exact fun failure s same calm => level.trans (same calm)
  · rintro failure _ ⟨rfl, _⟩ _
    exact .refl table

/-- No entry was lost, and the exponent has risen only if there are now too many for it. -/
structure Paced (before after : Table K V) : Prop where
  count_le : before.count ≤ after.count
  exponent : after.exponent = before.exponent ∨ overloaded after.count before.exponent = true

theorem Level.paced {before after : Table K V} (level : Level before after) : Paced before after :=
  ⟨Nat.le_of_eq level.count.symm, .inl level.exponent⟩

theorem Paced.trans {before between after : Table K V} (first : Paced before between)
    (second : Paced between after) : Paced before after := by
  constructor
  · exact Nat.le_trans first.count_le second.count_le
  · rcases first.exponent with same | full
    · rw [← same]
      exact second.exponent
    · right
      by_contra fits
      rw [overloaded_mono second.count_le (Bool.eq_false_iff.mpr fits)] at full
      cases full

end Table

namespace Map

variable {scheme : KeyScheme K δ} {key : K} {map : Map K V} {env : Env δ} {own : ρ}

theorem claim_paces (steadfast : scheme.Steadfast) (sound : map.table.Sound Rules.any)
    (roomy : map.table.Uncrowded) (hash : UInt64) (keys : KeyEnv δ) :
    Ends (Table.claim scheme key hash) (map.table, { env with keys })
      (fun claim s => Stores scheme key hash (fun s => map.table.Paced s.1)
        (fun _ s => map.table.Paced s.1) s claim)
      (fun failure s => ¬ failure.Aborts → map.table.Paced s.1) := by
  apply ((Table.claim_offers sound).both (Table.claim_paces steadfast sound roomy _)).mono
  · rintro _ ⟨after, env'⟩ ⟨offered, paces⟩
    cases offered with
    | occupied drifts seed holds judges =>
      intro f
      obtain ⟨count, exponent⟩ := paces
      refine (Table.ends_updateEntry holds _).mpr ⟨?_, .inl ?_⟩
      · rw [Table.put_count]
        exact Nat.le_of_eq count.symm
      · rw [Table.put_exponent]
        exact exponent
    | vacant =>
      obtain ⟨count, exponent⟩ := paces
      intro value
      constructor
      · exact Nat.le_succ_of_le (Nat.le_of_eq count.symm)
      · change after.exponent = _ ∨ overloaded (after.count + 1) _ = true
        rwa [count]
  · exact fun failure s both calm => (both.2 calm).paced

theorem insert?_paces (steadfast : scheme.Steadfast) (sound : map.table.Sound Rules.any)
    (roomy : map.table.Uncrowded) (free : map.latch.held = false) (value : V) :
    Leads (insert? scheme key value) (map, env) fun s => map.table.Paced s.1.table :=
  (insert?_leads_of free (fun hash keys _ => claim_paces steadfast sound roomy hash keys)
    (fun _ _ _ => (Table.Level.refl _).paced) value).mono fun _ => And.left

theorem getOrInsert?_paces (steadfast : scheme.Steadfast) (sound : map.table.Sound Rules.any)
    (roomy : map.table.Uncrowded) (free : map.latch.held = false)
    (default : StateM ρ (Except String V)) (f : V → V) :
    Leads (getOrInsert? scheme key default f) ((map, env), own)
      fun s => map.table.Paced s.1.1.table :=
  (getOrInsert?_leads_of free (fun hash keys _ => claim_paces steadfast sound roomy hash keys)
    (fun _ _ _ => (Table.Level.refl _).paced) default f).mono fun _ => And.left

theorem extend_paces (steadfast : scheme.Steadfast) (pairs : List (K × V)) :
    ∀ {map : Map K V} {env : Env δ}, map.table.Sound Rules.any → map.table.Uncrowded →
      map.latch.held = false →
      Leads (extend scheme pairs) (map, env) fun s => map.table.Paced s.1.table := by
  induction pairs with
  | nil => exact fun _ _ _ => (Table.Level.refl _).paced
  | cons pair pairs ih =>
    intro map env sound roomy free
    change Leads (do discard (insert scheme pair.1 pair.2); extend scheme pairs) _ _
    unfold Leads
    rw [ends_bind, ends_discard]
    apply (Ends.both (insert?_leads (Table.conducts_treads scheme none) sound free pair.2).orAbort
      (insert?_paces steadfast sound roomy free pair.2).orAbort).mono
    · rintro _ s ⟨led, paced⟩
      have sound' := led.path.sound (Rules.any_heldBy scheme) sound
      have roomy' := led.path.keeps Table.Step.uncrowded sound roomy
      exact (ih sound' roomy' led.free).mono fun s' paced' => paced.trans paced'
    · exact fun failure s both calm => both.2 calm

end Map

end GradualMap
