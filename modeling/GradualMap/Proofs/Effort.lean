import GradualMap.Proofs.Resizing
import GradualMap.Proofs.Rounds

/-!
What one write does for resizes. It takes the one in flight forward first. If that is over with it
and the table must grow for a new entry, the write starts another resize and takes that forward as
well; the rest of the write leaves resizes alone.
-/

namespace GradualMap

open GradualMap.Action

variable {K V δ ρ : Type}

namespace Table

variable {scheme : KeyScheme K δ} {key : K} {hash : UInt64} {table : Table K V} {env : Env δ}
  {before between after : Table K V × List Event}

/-- A while in which a resize in flight is left as it is, and nothing is told of any. -/
structure Lull (before after : Table K V × List Event) : Prop where
  resize : after.1.resize = before.1.resize
  news : ∃ news, after.2 = news ++ before.2 ∧ ∀ event ∈ news, event.marks = false

theorem Lull.refl (before : Table K V × List Event) : Lull before before :=
  ⟨rfl, [], rfl, List.forall_mem_nil _⟩

theorem Lull.trans (first : Lull before between) (second : Lull between after) :
    Lull before after := by
  obtain ⟨same, news, told, quiet⟩ := first
  obtain ⟨same', news', told', quiet'⟩ := second
  refine ⟨same'.trans same, news' ++ news, ?_, List.forall_mem_append.mpr ⟨quiet', quiet⟩⟩
  rw [told', told, List.append_assoc]

theorem Lull.of_resize {after : Table K V} (same : after.resize = before.1.resize) :
    Lull before (after, before.2) :=
  ⟨same, [], rfl, List.forall_mem_nil _⟩

theorem Room.lull {index offset : Nat} (room : Room index before offset after) :
    Lull before after := by
  cases room with
  | free first => exact .refl _
  | linked full overflowCount counted => exact ⟨rfl, [_], rfl, List.forall_mem_singleton.mpr rfl⟩

/-- The resize in flight is taken forward once. -/
inductive Stint (scheme : KeyScheme K δ) (before after : Table K V × List Event) : Prop
  | worked {index : Nat} {start between : Table K V × List Event} (ahead : Lull before start)
      (sound : start.1.Sound Rules.any) (worked : Worked scheme index start between)
      (rest : Lull between after)

/-- All that a write does for resizes. Only one that `inserts` may start over. -/
inductive Effort (scheme : KeyScheme K δ) (inserts : Bool) (before after : Table K V × List Event) :
    Prop
  | once (stint : Stint scheme before after)
  /-- The first resize is over, and another one is started. -/
  | twice {between : Table K V × List Event} (starts : inserts = true)
      (stint : Stint scheme before between) (sound : between.1.Sound Rules.any)
      (allocated : between.1.current.size ≠ 0) (idle : between.1.resize = none)
      (again : Stint scheme (between.1.started, between.1.startEvent :: between.2) after)

theorem Stint.after_lull (ahead : Lull before between) (stint : Stint scheme between after) :
    Stint scheme before after := by
  cases stint with
  | worked lull sound worked rest => exact .worked (ahead.trans lull) sound worked rest

theorem Stint.then_lull (stint : Stint scheme before between) (rest : Lull between after) :
    Stint scheme before after := by
  cases stint with
  | worked ahead sound worked lull => exact .worked ahead sound worked (lull.trans rest)

/-- Without a resize in flight there is nothing to take forward. -/
theorem Stint.of_idle (sound : before.1.Sound Rules.any) (idle : before.1.resize = none) :
    Stint scheme before before :=
  .worked (.refl _) sound (.of_idle idle 0) (.refl _)

theorem Readied.stint {index : Nat} {s : Table K V × Env δ} (sound : table.Sound Rules.any)
    (ready : Readied scheme index (table, env) s) :
    Stint scheme (table, env.log) (s.1, s.2.log) :=
  .worked (.refl _) sound ready.worked (.refl _)

theorem Effort.after_lull {inserts : Bool} (ahead : Lull before between)
    (effort : Effort scheme inserts between after) : Effort scheme inserts before after := by
  cases effort with
  | once stint => exact .once (stint.after_lull ahead)
  | twice starts stint sound allocated idle again =>
    exact .twice starts (stint.after_lull ahead) sound allocated idle again

theorem Effort.then_lull {inserts : Bool} (effort : Effort scheme inserts before between)
    (rest : Lull between after) : Effort scheme inserts before after := by
  cases effort with
  | once stint => exact .once (stint.then_lull rest)
  | twice starts stint sound allocated idle again =>
    exact .twice starts stint sound allocated idle (again.then_lull rest)

/-- One round of a claim takes the resize in flight forward once; `full` tells what comes next if
the table must grow. -/
theorem round_leads {rounds : Nat} {post : Table K V × List Event → Prop}
    (sound : table.Sound Rules.any) (allocated : table.current.size ≠ 0)
    (stinted : ∀ after, Stint scheme (table, env.log) after → post after)
    (full : ∀ s, Readied scheme (bucketIndex hash table.exponent) (table, env) s →
      s.1.mustGrow = true → Leads (do startGrowth; claimWithin scheme key hash rounds) s
        fun s => post (s.1, s.2.log)) :
    Leads (claimWithin scheme key hash (rounds + 1)) (table, env) fun s => post (s.1, s.2.log) := by
  apply round_ends (Rules.any_heldBy scheme) sound allocated
  · exact growWork_stalls (Rules.any_heldBy scheme) sound _ _
      fun failure s aborts calm => absurd aborts calm
  · exact fun failure s _ balks calm => absurd balks.aborts calm
  · exact fun s offset entry ready _ _ => stinted _ (ready.stint sound)
  · exact fun s ready must _ => full s ready must
  · exact fun between s offset ready _ _ room =>
      stinted _ ((ready.stint sound).then_lull room.lull)

theorem claimWithin_efforts {rounds : Nat} (sound : table.Sound Rules.any)
    (roomy : table.Uncrowded) (allocated : table.current.size ≠ 0) :
    Leads (claimWithin scheme key hash (rounds + 2)) (table, env)
      fun s => Effort scheme true (table, env.log) (s.1, s.2.log) := by
  apply round_leads sound allocated fun _ stint => .once stint
  intro s ready must
  obtain ⟨sound', roomy', allocated'⟩ := ready.onward sound roomy allocated
  have idle := idle_of_mustGrow must
  have stint := ready.stint sound
  unfold Leads
  rw [ends_bind]
  apply (startGrowth_ends sound' allocated' s.2).mono
  · rintro _ ⟨_, env'⟩ ⟨rfl, small, log⟩
    have sound'' := sound'.started idle (sound'.size_eq allocated') small
    apply round_leads sound'' (allocated_started s.1)
    · intro after again
      rw [log] at again
      exact .twice rfl stint sound' allocated' idle again
    · intro s' ready' must'
      rw [ready'.calm sound' roomy' allocated' idle small] at must'
      cases must'
  · rintro failure _ ⟨rfl, _⟩ _
    exact .once stint

theorem claim_efforts (sound : table.Sound Rules.any) (roomy : table.Uncrowded) :
    Leads (claim scheme key hash) (table, env)
      fun s => Effort scheme true (table, env.log) (s.1, s.2.log) := by
  unfold claim Leads
  rw [ends_bind]
  apply (reserve_ends sound env).mono
  · rintro _ ⟨_, env'⟩ ⟨log, ⟨allocated, rfl⟩ | ⟨bare, rfl⟩⟩
    · exact log ▸ claimWithin_efforts sound roomy allocated
    · have ahead : Lull (table, env.log) (table.reserved, env'.log) := by
        rw [log]
        exact .of_resize rfl
      exact (claimWithin_efforts (sound.reserved bare).1 roomy (allocated_reserved table)).mono
        fun s effort => effort.after_lull ahead
  · rintro failure _ ⟨rfl, idle, _⟩ _
    exact .once (.of_idle sound idle)

theorem delete_efforts (sound : table.Sound Rules.any) (filled : table.count ≠ 0) :
    Leads (delete scheme key hash) (table, env)
      fun s => Effort scheme false (table, env.log) (s.1, s.2.log) := by
  apply removal_ends (Rules.any_heldBy scheme) sound filled
  · exact growWork_stalls (Rules.any_heldBy scheme) sound _ _
      fun failure s aborts calm => absurd aborts calm
  · exact fun failure s _ balks calm => absurd balks.aborts calm
  · exact fun s ready _ => .once (ready.stint sound)
  · rintro between ⟨_, env'⟩ offset entry ready holds _ taken
    refine .once ((ready.stint sound).then_lull ?_)
    generalize log_eq : env'.log = log at taken
    cases taken with
    | some more => exact .of_resize rfl
    | last empty seed => exact ⟨rfl, [.emptied], rfl, List.forall_mem_singleton.mpr rfl⟩

end Table

namespace Map

/-- The scheme answers with a hash, so that the key is not turned away. -/
def Hashes (scheme : KeyScheme K δ) (key : K) (map : Map K V) (env : Env δ) : Prop :=
  ∃ hash, (scheme.hashKey key map.table.seed env.keys).1 = .ok hash

/-- What a write comes to: it does all its work on resizes, or nothing at all. -/
inductive Attended (scheme : KeyScheme K δ) (works : Prop) (inserts : Bool)
    (before after : Table K V × List Event) : Prop
  | effort (working : works) (effort : Table.Effort scheme inserts before after)
  | still (idle : ¬ works) (same : after = before)

variable {scheme : KeyScheme K δ} {key : K} {map : Map K V} {env : Env δ} {own : ρ}

theorem not_hashes {failure : Failure} {keys : KeyEnv δ}
    (run : scheme.hashKey key map.table.seed env.keys = (.error failure, keys)) :
    ¬ Hashes scheme key map env := by
  rintro ⟨hash, hashed⟩
  rw [run] at hashed
  cases hashed

theorem claim_attends (sound : map.table.Sound Rules.any) (roomy : map.table.Uncrowded)
    (hash : UInt64) (keys : KeyEnv δ)
    (run : scheme.hashKey key map.table.seed env.keys = (.ok hash, keys)) :
    Ends (Table.claim scheme key hash) (map.table, { env with keys })
      (fun claim s => Stores scheme key hash
        (fun s => Attended scheme (Hashes scheme key map env) true (map.table, env.log)
          (s.1, s.2.log))
        (fun _ s => Attended scheme (Hashes scheme key map env) true (map.table, env.log)
          (s.1, s.2.log)) s claim)
      (fun failure s => ¬ failure.Aborts → Attended scheme (Hashes scheme key map env) true
        (map.table, env.log) (s.1, s.2.log)) := by
  have hashes : Hashes scheme key map env := ⟨hash, congrArg Prod.fst run⟩
  apply ((Table.claim_offers sound).both (Table.claim_efforts sound roomy)).mono
  · rintro _ ⟨after, env'⟩ ⟨offered, effort⟩
    cases offered with
    | occupied path seed holds judges =>
      intro f
      refine (Table.ends_updateEntry holds _).mpr ?_
      exact .effort hashes (effort.then_lull (.of_resize rfl))
    | vacant =>
      intro value
      exact .effort hashes (effort.then_lull (.of_resize rfl))
  · exact fun failure s both calm => .effort hashes (both.2 calm)

theorem insert?_attends (sound : map.table.Sound Rules.any) (roomy : map.table.Uncrowded)
    (free : map.latch.held = false) (value : V) :
    Leads (insert? scheme key value) (map, env) fun s =>
      Attended scheme (Hashes scheme key map env) true (map.table, env.log)
        (s.1.table, s.2.log) :=
  (insert?_leads_of free (claim_attends sound roomy)
    (fun _ _ run => .still (not_hashes run) rfl) value).mono fun _ => And.left

theorem getOrInsert?_attends (sound : map.table.Sound Rules.any) (roomy : map.table.Uncrowded)
    (free : map.latch.held = false) (default : StateM ρ (Except String V)) (f : V → V) :
    Leads (getOrInsert? scheme key default f) ((map, env), own) fun s =>
      Attended scheme (Hashes scheme key map env) true (map.table, env.log)
        (s.1.1.table, s.1.2.log) :=
  (getOrInsert?_leads_of free (claim_attends sound roomy)
    (fun _ _ run => .still (not_hashes run) rfl) default f).mono fun _ => And.left

theorem removePair?_attends (sound : map.table.Sound Rules.any) (free : map.latch.held = false) :
    Leads (removePair? scheme key : MapAction K V δ (Option (K × V))) (map, env) fun s =>
      Attended scheme (map.isEmpty = false ∧ Hashes scheme key map env) false
        (map.table, env.log) (s.1.table, s.2.log) := by
  have deletes : ∀ hash keys, map.isEmpty = false →
      scheme.hashKey key map.table.seed env.keys = (.ok hash, keys) →
      Leads (Table.delete scheme key hash) (map.table, { env with keys })
        fun s => Attended scheme (map.isEmpty = false ∧ Hashes scheme key map env) false
          (map.table, env.log) (s.1, s.2.log) := by
    intro hash keys nonempty run
    have filled : map.table.count ≠ 0 := by simpa [isEmpty] using nonempty
    exact (Table.delete_efforts sound filled).mono fun s effort =>
      .effort ⟨nonempty, hash, congrArg Prod.fst run⟩ effort
  refine (removePair?_leads_of free deletes (fun keys empty => .still (fun works => ?_) rfl)
    fun failure keys run => .still (fun works => not_hashes run works.2) rfl).mono fun _ => And.left
  rw [empty] at works
  cases works.1

end Map

namespace Call

/-- A call that writes one key: it inserts or removes it. -/
def writes : Call K V ρ → Bool
  | .insert .. | .getOrInsert .. | .remove _ | .removePair _ => true
  | _ => false

def inserts : Call K V ρ → Bool
  | .insert .. | .getOrInsert .. => true
  | _ => false

/-- A call that must take a resize in flight forward: its key hashes, and there is an entry if it is
to remove one. -/
def Works (scheme : KeyScheme K δ) (map : Map K V) (env : Env δ) : Call K V ρ → Prop
  | .insert key _ | .getOrInsert key _ _ => Map.Hashes scheme key map env
  | .remove key | .removePair key => map.isEmpty = false ∧ Map.Hashes scheme key map env
  | _ => False

variable {scheme : KeyScheme K δ} {map : Map K V} {env : Env δ} {own : ρ}

theorem Works.writes {call : Call K V ρ} (works : call.Works scheme map env) :
    call.writes = true := by
  cases call with
  | insert | getOrInsert | remove | removePair => rfl
  | _ => exact works.elim

theorem attempt_attends (sound : map.table.Sound Rules.any) (roomy : map.table.Uncrowded)
    (free : map.latch.held = false) {call : Call K V ρ} (writes : call.writes = true) :
    Leads (call.attempt scheme) ((map, env), own) fun s =>
      Map.Attended scheme (call.Works scheme map env) call.inserts (map.table, env.log)
        (s.1.1.table, s.1.2.log) := by
  cases call with
  | insert key value =>
    exact leads_map.mpr (ends_first.mpr (Map.insert?_attends sound roomy free value))
  | getOrInsert key default f =>
    exact leads_map.mpr (Map.getOrInsert?_attends sound roomy free _ f)
  | remove key =>
    exact leads_map.mpr (ends_first.mpr (leads_map.mpr (Map.removePair?_attends sound free)))
  | removePair key => exact leads_map.mpr (ends_first.mpr (Map.removePair?_attends sound free))
  | _ => cases writes

end Call

end GradualMap
