import GradualMap.Proofs.Step

/-!
Every operation of a table is a path of steps. Nothing is asked of the key scheme: an operation that
it stops aborts, and one that comes to an end has gone step by step.
-/

namespace GradualMap

open GradualMap.Action

variable {K V δ ρ : Type}

namespace Table

variable {scheme : KeyScheme K δ} {key : K} {hash : UInt64} {table : Table K V} {env : Env δ}
  {before between after : Table K V × List Event}

/-- A step that makes room and touches no entry: of a resize in flight, to start one, or to the
first array. -/
inductive Drift (scheme : KeyScheme K δ) : Table K V × List Event → Table K V × List Event → Prop
  | shift {before after : Table K V × List Event} (shift : Shift scheme before after) :
      Drift scheme before after
  | reserve {table : Table K V} {log : List Event} (bare : table.current.size = 0) :
      Drift scheme (table, log) (table.reserved, log)
  | start {table : Table K V} {log : List Event} (idle : table.resize = none)
      (allocated : table.current.size ≠ 0) (small : table.started.exponent < exponentLimit) :
      Drift scheme (table, log) (table.started, table.startEvent :: log)

abbrev Drifts (scheme : KeyScheme K δ) :
    Table K V × List Event → Table K V × List Event → Prop :=
  Relation.ReflTransGen (Drift scheme)

theorem Drift.step (drift : Drift scheme before after) : Step scheme before after := by
  cases drift with
  | shift shift => exact .shift shift
  | reserve bare => exact .reserve bare
  | start idle allocated small => exact .start idle allocated small

theorem Drifts.path (drifts : Drifts scheme before after) : Path scheme before after :=
  Relation.ReflTransGen.mono (fun _ _ => Drift.step) _ _ drifts

theorem Shifts.drifts (shifts : Shifts scheme before after) : Drifts scheme before after :=
  Relation.ReflTransGen.mono (fun _ _ => Drift.shift) _ _ shifts

/-- What a claim has come to, whatever the scheme is like. -/
inductive Offered (scheme : KeyScheme K δ) (key : K) (hash : UInt64)
    (before : Table K V × List Event) : Claim → Table K V × List Event → Prop
  | occupied {after : Table K V × List Event} {offset : Nat} {entry : Entry K V}
      (drifts : Drifts scheme before after) (seed : after.1.seed = before.1.seed)
      (holds : after.1.Holds ⟨.current, bucketIndex hash after.1.exponent, offset⟩ (topHash hash)
        entry)
      (judges : scheme.Judges key entry.key true) :
      Offered scheme key hash before
        (.occupied ⟨.current, bucketIndex hash after.1.exponent, offset⟩) after
  | vacant {start after : Table K V × List Event} {offset : Nat} (between : Table K V × List Event)
      (drifts : Drifts scheme before start) (seed : between.1.seed = before.1.seed)
      (allocated : between.1.current.size ≠ 0)
      (worked : Worked scheme (bucketIndex hash between.1.exponent) start between)
      (calm : between.1.mustGrow = false) (absent : between.1.Located scheme key hash none)
      (room : Room (bucketIndex hash between.1.exponent) between offset after) :
      Offered scheme key hash before (.vacant (bucketIndex hash between.1.exponent) offset) after

theorem Offered.prepend {claim : Claim} (drifts : Drifts scheme before between)
    (seed : between.1.seed = before.1.seed)
    (offered : Offered scheme key hash between claim after) :
    Offered scheme key hash before claim after := by
  cases offered with
  | occupied drifts' seed' holds judges =>
    exact .occupied (drifts.trans drifts') (seed'.trans seed) holds judges
  | vacant between drifts' seed' allocated worked calm absent room =>
    exact .vacant between (drifts.trans drifts') (seed'.trans seed) allocated worked calm absent
      room

/-- The key is written over the one that was found, or only its value is. -/
theorem Offered.overwritten {pos : Position}
    (offered : Offered scheme key hash before (.occupied pos) after)
    (hashes : scheme.Hashes key before.1.seed hash) (f : V → V) :
    ∃ top entry, after.1.Holds pos top entry ∧ Path scheme before
      (after.1.put pos (.full top (Map.overwrite scheme key f entry)), after.2) := by
  cases offered with
  | occupied drifts seed holds judges =>
    refine ⟨_, _, holds, drifts.path.tail ?_⟩
    unfold Map.overwrite
    by_cases replaces : scheme.traits.replacesKey = true
    · rw [if_pos replaces]
      exact .rekey holds judges (seed ▸ hashes) _
    · rw [if_neg replaces]
      exact .write holds _

theorem Offered.filled {index offset : Nat}
    (offered : Offered scheme key hash before (.vacant index offset) after)
    (hashes : scheme.Hashes key before.1.seed hash) (value : V) :
    Path scheme before (after.1.filled index offset hash ⟨key, value⟩, after.2) := by
  cases offered with
  | vacant between drifts seed allocated worked calm absent room =>
    exact drifts.path.tail (.fill allocated worked calm absent room (seed ▸ hashes))

/-- The shifts of a resize before a write. -/
theorem Readied.drifts {index : Nat} {s s' : Table K V × Env δ} (ready : Readied scheme index s s')
    (sound : s.1.Sound Rules.any) : s'.1.Sound Rules.any ∧ Steady s.1 s'.1 ∧
      Drifts scheme (s.1, s.2.log) (s'.1, s'.2.log) := by
  obtain ⟨sound', steady⟩ := ready.worked.shifts.sound (Rules.any_heldBy scheme) sound
  exact ⟨sound', steady, ready.worked.shifts.drifts⟩

theorem claimWithin_offers (rounds : Nat) : ∀ {table : Table K V} {env : Env δ},
    table.Sound Rules.any → table.current.size ≠ 0 →
    Ends (claimWithin scheme key hash rounds) (table, env)
      (fun claim s => Offered scheme key hash (table, env.log) claim (s.1, s.2.log))
      (fun failure s => ¬ failure.Aborts → Drifts scheme (table, env.log) (s.1, s.2.log)) := by
  induction rounds with
  | zero =>
    intro table env _ _
    exact fun calm => absurd ⟨_, rfl⟩ calm
  | succ rounds ih =>
    intro table env sound allocated
    apply round_ends (Rules.any_heldBy scheme) sound allocated
    · exact growWork_stalls (Rules.any_heldBy scheme) sound _ _
        fun failure s aborts calm => absurd aborts calm
    · exact fun failure s _ balks calm => absurd balks.aborts calm
    · intro s offset entry ready holds judges
      obtain ⟨_, steady, drifts⟩ := ready.drifts sound
      exact .occupied drifts steady.seed holds judges
    · intro s ready must _
      obtain ⟨sound', steady, drifts⟩ := ready.drifts sound
      have allocated' : s.1.current.size ≠ 0 := steady.size ▸ allocated
      have idle := idle_of_mustGrow must
      have size := sound'.size_eq allocated'
      rw [ends_bind]
      apply (startGrowth_ends sound' allocated' s.2).mono
      · rintro _ ⟨_, env'⟩ ⟨rfl, small, log⟩
        have drifts' := drifts.tail (.start idle allocated' small)
        rw [← log] at drifts'
        refine (ih (sound'.started idle size small) (allocated_started s.1)).mono ?_ ?_
        · exact fun claim s' offered => offered.prepend drifts' steady.seed
        · exact fun failure s' later calm => drifts'.trans (later calm)
      · rintro failure _ ⟨rfl, _⟩ _
        exact drifts
    · intro between s offset ready calm absent room
      obtain ⟨sound', steady, _⟩ := ready.drifts sound
      have worked : Worked scheme (bucketIndex hash between.1.exponent) (table, env.log)
          (between.1, between.2.log) := ready.exponent ▸ ready.worked
      exact .vacant (between.1, between.2.log) .refl steady.seed (steady.size ▸ allocated) worked
        calm absent room

theorem claim_offers (sound : table.Sound Rules.any) :
    Ends (claim scheme key hash) (table, env)
      (fun claim s => Offered scheme key hash (table, env.log) claim (s.1, s.2.log))
      (fun failure s => ¬ failure.Aborts → Drifts scheme (table, env.log) (s.1, s.2.log)) := by
  unfold claim
  rw [ends_bind]
  apply (reserve_ends sound env).mono
  · rintro _ ⟨_, env'⟩ ⟨log, ⟨allocated, rfl⟩ | ⟨bare, rfl⟩⟩
    · exact log ▸ claimWithin_offers _ sound allocated
    · have drifts : Drifts scheme (table, env.log) (table.reserved, env'.log) :=
        log ▸ .single (.reserve bare)
      refine (claimWithin_offers _ (sound.reserved bare).1 (allocated_reserved table)).mono ?_ ?_
      · exact fun claim s offered => offered.prepend drifts rfl
      · exact fun failure s later calm => drifts.trans (later calm)
  · rintro failure _ ⟨rfl, _⟩ _
    exact .refl

/-- A value is written to the entry of a slot, if there is one. -/
theorem updateEntry_leads_of (sound : table.Sound Rules.any) {pos : Position} {f : V → V}
    {post : Table K V × Env δ → Prop}
    (writes : ∀ top entry, table.Holds pos top entry →
      post (table.put pos (.full top { entry with value := f entry.value }), env)) :
    Leads (updateEntry pos fun entry => { entry with value := f entry.value }) (table, env)
      post := by
  cases read : table.slotAt pos with
  | error cause =>
    unfold updateEntry Leads
    rw [ends_bind, ends_read, ends_bind, read]
    exact fun calm => absurd ⟨_, rfl⟩ calm
  | ok slot =>
    cases has : slot.entry with
    | none =>
      unfold updateEntry Leads
      rw [ends_bind, ends_read, ends_bind, ends_check_ok read, has]
      exact fun calm => absurd ⟨_, rfl⟩ calm
    | some entry =>
      obtain ⟨top, holds⟩ := sound.holds_of_entry read has
      exact (ends_updateEntry holds _).mpr (writes top entry holds)

theorem updateEntry_leads (sound : table.Sound Rules.any) (pos : Position) (f : V → V) :
    Leads (updateEntry pos fun entry => { entry with value := f entry.value }) (table, env)
      fun s => Path scheme (table, env.log) (s.1, s.2.log) :=
  updateEntry_leads_of sound fun _ _ holds => .single (.write holds _)

theorem delete_leads (sound : table.Sound Rules.any) :
    Leads (delete scheme key hash) (table, env)
      fun s => Path scheme (table, env.log) (s.1, s.2.log) := by
  by_cases empty : table.count = 0
  · exact (ends_delete_of_empty empty).mpr .refl
  apply removal_ends (Rules.any_heldBy scheme) sound empty
  · exact growWork_stalls (Rules.any_heldBy scheme) sound _ _
      fun failure s aborts calm => absurd aborts calm
  · exact fun failure s _ balks calm => absurd balks.aborts calm
  · exact fun s ready _ => (ready.drifts sound).2.2.path
  · rintro between ⟨_, env'⟩ offset entry ready holds _ taken
    have path := (ready.drifts sound).2.2.path.tail (.remove holds)
    generalize log_eq : env'.log = log at taken
    cases taken with
    | some more => exact path
    | last empty seed => exact path.tail (.reseed empty seed (.inr rfl))

theorem clear_leads (table : Table K V) (env : Env δ) :
    Leads clear (table, env) fun s => Path scheme (table, env.log) (s.1, s.2.log) := by
  apply (clear_ends table env).ends
  rintro _ ⟨_, env'⟩ (⟨_, rfl, rfl⟩ | ⟨_, seed, rfl, log⟩)
  · exact .refl
  · exact log ▸ .single (.clear seed)

theorem retain_leads (sound : table.Sound Rules.any)
    (f : K → V → StateM ρ (V × Except String Bool)) (own : ρ) :
    Leads (retain scheme f) ((table, env), own)
      fun s => Path scheme (table, env.log) (s.1.1, s.1.2.log) ∧
        (table.count ≠ 0 → s.1.1.resize = none) := by
  unfold retain Leads
  rw [ends_bind, ends_first, ends_read]
  split
  · rename_i empty
    exact ⟨.refl, fun filled => absurd empty filled⟩
  · rename_i filled
    rw [ends_bind, ends_first]
    refine (finishGrowth_ends (Rules.any_heldBy scheme) sound env).mono ?_
      fun failure s aborts calm => absurd aborts calm
    rintro _ ⟨between, env'⟩ ⟨shifts, idle⟩
    obtain ⟨sound', steady⟩ := shifts.sound (Rules.any_heldBy scheme) sound
    have all : between.entries = between.current.entries := entries_of_idle idle
    simp only
    rw [ends_bind, ends_first, ends_read, ends_bind]
    refine ((retainChains_ends f (List.range between.current.size) []
      (sound'.stands trivial idle) idle (fun i mem => List.mem_range.mp mem) List.nodup_range
      (by rw [all, List.append_nil]; rfl)).leaving (leaves_retainChains _)).mono ?_ ?_
    · rintro _ ⟨⟨after, env''⟩, own'⟩
        ⟨⟨left, run, sound'', exponent, seed, idle', entries⟩, same⟩
      simp only [Prod.mk.injEq] at same
      obtain ⟨rfl, size, linked, overflow⟩ := same
      rw [List.append_nil] at entries
      have keys : (after.entries.map (·.key)).Subperm (between.entries.map (·.key)) := by
        refine (entries.map _).subperm.trans ?_
        rw [all]
        exact run.keys.subperm
      have path := shifts.path.tail (.thin idle
        ⟨idle', exponent, seed, size, linked, overflow, sound'', keys⟩)
      rw [ends_bind, ends_first, ends_read]
      split
      · rename_i empty
        rw [ends_first]
        apply (reseed_yields _ env'').ends
        rintro _ ⟨_, env₃⟩ ⟨seed, rfl, log⟩
        exact ⟨path.tail (.reseed empty seed (.inl log)), fun _ => idle'⟩
      · exact ⟨path, fun _ => idle'⟩
    · rintro failure s ⟨⟨text, _, _, rfl, _⟩, _⟩ calm
      exact absurd ⟨_, rfl⟩ calm

end Table

end GradualMap
