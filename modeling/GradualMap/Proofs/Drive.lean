import GradualMap.Proofs.Herd
import GradualMap.Proofs.Latch

/-!
Calls and strays. Whatever key a call is about, it finds no stray, and so it writes none and takes
none out: an insert adds one, and only what goes over all entries can drop one.
-/

namespace GradualMap

open GradualMap.Action

variable {K V δ ρ : Type} {reading : Reading K} {scheme : KeyScheme K δ} {key : K}

/-- A key that a look-up has found can be found. -/
theorem known_of_judges (follows : scheme.Follows reading) (apart : reading.StraysApart)
    {stored : K} (judges : scheme.Judges key stored true) :
    reading.same key key = true ∧ reading.same stored stored = true :=
  apart _ _ (follows.judges_iff judges).symm

namespace Table

variable {table : Table K V} {env : Env δ} {own : ρ} {hash : UInt64} {drops : Bool}

/-- An entry that was found may be written over. -/
theorem Herded.overwritten {before after : Table K V × List Event} {pos : Position}
    (follows : scheme.Follows reading) (apart : reading.StraysApart)
    (sound : before.1.Sound (reading.rules True))
    (offered : Offered scheme key hash before (.occupied pos) after)
    (hashes : scheme.Hashes key before.1.seed hash) (f : V → V) :
    ∃ top entry, after.1.Holds pos top entry ∧ Herded reading drops 0 before.1
      (after.1.put pos (.full top (Map.overwrite scheme key f entry))) := by
  cases offered with
  | @occupied _ offset entry drifts seed holds judges =>
    obtain ⟨sound', herded⟩ := Herded.drifts follows sound drifts
    obtain ⟨known, stored⟩ := known_of_judges follows apart judges
    refine ⟨_, _, holds, herded.later (.put sound' holds stored ?_ ?_)⟩
    · unfold Map.overwrite
      split
      · exact known
      · exact stored
    · unfold Map.overwrite
      by_cases replaces : scheme.traits.replacesKey = true
      · rw [if_pos replaces]
        exact (sound'.rekeyed (reading.rules_keptBy follows.reproduces True) holds (seed ▸ hashes) _).1
      · rw [if_neg replaces]
        exact (sound'.put holds { entry with value := f entry.value } fun _ _ _ h => h).1

/-- A new entry may be a stray, and then it is the only one that has come. -/
theorem Herded.entered {before after : Table K V × List Event} {index offset : Nat}
    (follows : scheme.Follows reading) (sound : before.1.Sound (reading.rules True))
    (offered : Offered scheme key hash before (.vacant index offset) after)
    (hashes : scheme.Hashes key before.1.seed hash) (value : V) :
    Herded reading drops (strays reading [⟨key, value⟩]) before.1
      (after.1.filled index offset hash ⟨key, value⟩) := by
  cases offered with
  | vacant between drifts seed allocated worked calm absent room =>
    obtain ⟨sound₁, drifted⟩ := Herded.drifts follows sound drifts
    obtain ⟨sound₂, shifted⟩ := Herded.drifts follows sound₁ worked.shifts.drifts
    obtain ⟨_, _, roomed, admits⟩ := roomed_of_worked (reading.rules_keptBy follows.reproduces True) sound₁
      allocated worked room (seed ▸ hashes)
    have bound := sound₂.bucketIndex_lt allocated hash
    exact drifted.later (shifted.later ((Herded.room sound₂ bound worked.settled room).later
      (.filled roomed.sound roomed.bound roomed.settled roomed.first admits)))

theorem claim_herds (follows : scheme.Follows reading) (apart : reading.StraysApart)
    (sound : table.Sound (reading.rules True)) (hashes : scheme.Hashes key table.seed hash) :
    Ends (claim scheme key hash) (table, env)
      (fun claim s => Map.Stores scheme key hash (fun s => Herded reading drops 0 table s.1)
        (fun value s => Herded reading drops (strays reading [⟨key, value⟩]) table s.1) s claim)
      (fun failure s => ¬ failure.Aborts → Herded reading drops 0 table s.1) := by
  refine (claim_offers (sound.any trivial)).mono ?_
    fun _ _ drifts calm => (Herded.drifts follows sound (drifts calm)).2
  rintro (pos | ⟨index, offset⟩) s offered
  · intro f
    obtain ⟨top, entry, holds, herded⟩ := Herded.overwritten follows apart sound offered hashes f
    exact (ends_updateEntry holds _).mpr herded
  · exact Herded.entered follows sound offered hashes

/-- The entry of a key is taken out. -/
theorem delete_herds (follows : scheme.Follows reading) (apart : reading.StraysApart)
    (sound : table.Sound (reading.rules True)) :
    Leads (delete scheme key hash) (table, env) fun s => Herded reading drops 0 table s.1 := by
  have kept := reading.rules_keptBy follows.reproduces True
  by_cases empty : table.count = 0
  · exact (ends_delete_of_empty empty).mpr (.refl _)
  apply removal_ends kept sound empty
  · exact growWork_stalls kept sound _ _ fun _ _ stalled => stalled.elim
  · exact fun _ _ _ balks => absurd balks follows.not_balks
  · exact fun s ready _ => (Herded.drifts follows sound ready.worked.shifts.drifts).2
  · rintro between ⟨_, env'⟩ offset entry ready holds judges taken
    obtain ⟨sound', herded⟩ := Herded.drifts follows sound ready.worked.shifts.drifts
    have gone : Herded reading drops 0 table
        (between.1.without (bucketIndex hash between.1.exponent) offset) :=
      herded.later (.without sound' holds (known_of_judges follows apart judges).2)
    have sound'' := (sound'.without holds).1
    generalize env'.log = log at taken
    cases taken with
    | some more => exact gone
    | last empty seed =>
      have none := sound''.entries_eq_nil.mp empty
      exact gone.later (.of_bare sound'' none (sound''.reseeded none seed) none (Nat.le_refl _))

theorem clear_herds (sound : table.Sound (reading.rules True)) :
    Leads clear (table, env) fun s => Herded reading true 0 table s.1 := by
  apply (clear_ends table env).ends
  rintro _ ⟨_, env'⟩ (⟨_, rfl, rfl⟩ | ⟨_, seed, rfl, _⟩)
  · exact .refl _
  · exact .of_empty (sound.cleared seed) (entries_cleared table seed) (Nat.le_refl _)

/-- What is kept of the strays shown, if their values are left alone. -/
theorem strays_kept {f : K → V → StateM ρ (V × Except String Bool)}
    {shown kept : List (Entry K V)} {own own' : ρ} {result : Except String Unit}
    (plain : ∀ key value own, reading.Stray key → (f key value own).1.1 = value)
    (run : Keeps f shown own result kept own') : strays reading kept ≤ strays reading shown := by
  have same {entry : Entry K V} {value : V} {verdict : Except String Bool} {own own' : ρ}
      (answer : f entry.key entry.value own = ((value, verdict), own')) :
      strays reading [{ entry with value }] = strays reading [entry] := by
    by_cases known : reading.same entry.key entry.key = true
    · rw [strays_of_known known]
      exact strays_of_known known
    · have still := plain entry.key entry.value own (Bool.eq_false_iff.mpr known)
      rw [answer] at still
      rw [show value = entry.value from still]
  induction run with
  | done => exact le_refl _
  | @kept entry _ rest _ _ _ _ _ answer _ ih =>
    rw [strays_cons, strays_cons entry rest, same answer]
    exact add_le_add_right ih _
  | @dropped entry _ rest _ _ _ _ _ _ _ ih =>
    rw [strays_cons entry rest]
    exact ih.trans (Multiset.le_add_left _ _)
  | @raised entry _ rest _ _ _ answer =>
    rw [strays_cons, strays_cons entry rest, same answer]

theorem retainChain_herds {index : Nat} {f : K → V → StateM ρ (V × Except String Bool)}
    (plain : ∀ key value own, reading.Stray key → (f key value own).1.1 = value)
    (sound : table.Sound (reading.rules True)) (idle : table.resize = none)
    (bound : index < table.current.size) :
    Ends (retainChain f index) ((table, env), own)
      (fun _ s => s.1.1.Sound (reading.rules True) ∧ s.1.1.resize = none ∧
        s.1.1.current.size = table.current.size ∧ Herded reading true 0 table s.1.1)
      (fun failure _ => failure.Aborts) := by
  obtain ⟨others, all, _⟩ := entries_write_current bound rfl fun _ _ => rfl
  refine (retainChain_ends f sound idle bound all).mono ?_
    fun failure _ ⟨text, _, _, _, raised, _⟩ => ⟨_, raised⟩
  rintro _ ⟨⟨after, _⟩, _⟩ ⟨kept, _, run, _, sound', apart, whole⟩
  refine ⟨sound', apart.resize.trans idle, apart.size, .of_fewer apart.exponent apart.size
    fun i _ => ?_⟩
  by_cases here : i = index
  · subst here
    rw [straysAt_of_settled sound (settled_of_idle idle i),
      straysAt_of_settled sound' (settled_of_idle (apart.resize.trans idle) i)]
    -- All other entries are the same list before and after, so the rest is what the chain has left.
    obtain ⟨rest, split, split'⟩ := entries_write_current bound apart.size apart.others
    have same : after.entries = entries { table with current := after.current } := by
      unfold entries former
      rw [show after.resize = table.resize from apart.resize]
    have rests : rest.Perm others := (List.perm_append_left_iff _).mp (split.symm.trans all)
    have left : (after.current.chainAt i).entries.Perm kept := by
      refine (List.perm_append_right_iff rest).mp (split'.symm.trans ?_)
      exact (same ▸ whole).trans (rests.symm.append_left _)
    exact (le_of_eq (strays_perm left)).trans (strays_kept plain run)
  · rw [straysAt_congr apart.exponent apart.seed (apart.others i here)]
    rw [apart.resize]
    exact Resize.readsAlike_refl i _

theorem retainChains_herds {f : K → V → StateM ρ (V × Except String Bool)}
    (plain : ∀ key value own, reading.Stray key → (f key value own).1.1 = value)
    (indices : List Nat) : ∀ {table : Table K V} {env : Env δ} {own : ρ},
    table.Sound (reading.rules True) → table.resize = none →
    (∀ i ∈ indices, i < table.current.size) →
    Ends (indices.forM (retainChain f)) ((table, env), own)
      (fun _ s => s.1.1.Sound (reading.rules True) ∧ Herded reading true 0 table s.1.1)
      (fun failure _ => failure.Aborts) := by
  induction indices with
  | nil => exact fun sound _ _ => ⟨sound, .refl _⟩
  | cons index indices ih =>
    intro table env own sound idle bounds
    change Ends (do retainChain f index; indices.forM (retainChain f)) _ _ _
    rw [ends_bind]
    refine (retainChain_herds plain sound idle (bounds index (.head _))).mono ?_ fun _ _ => id
    rintro _ ⟨⟨between, _⟩, _⟩ ⟨sound', idle', size, herded⟩
    exact (ih sound' idle' fun i mem => size ▸ bounds i (.tail _ mem)).mono
      (fun _ _ ⟨sound'', herded'⟩ => ⟨sound'', herded.later herded'⟩) fun _ _ => id

/-- What goes over all entries may drop strays, but moves none. -/
theorem retain_herds (follows : scheme.Follows reading)
    {f : K → V → StateM ρ (V × Except String Bool)}
    (plain : ∀ key value own, reading.Stray key → (f key value own).1.1 = value)
    (sound : table.Sound (reading.rules True)) :
    Leads (retain scheme f) ((table, env), own) fun s => Herded reading true 0 table s.1.1 := by
  unfold retain Leads
  rw [ends_bind, ends_first, ends_read]
  split
  · exact .refl _
  · rw [ends_bind, ends_first]
    refine (finishGrowth_ends (reading.rules_keptBy follows.reproduces True) sound env).mono ?_
      fun _ _ stalled => stalled.elim
    rintro _ ⟨between, env'⟩ ⟨shifts, idle⟩
    obtain ⟨sound', herded⟩ := Herded.drifts follows sound shifts.drifts
    simp only
    rw [ends_bind, ends_first, ends_read, ends_bind]
    refine (retainChains_herds plain _ sound' idle fun i mem => List.mem_range.mp mem).mono ?_
      fun _ _ aborts calm => absurd aborts calm
    rintro _ ⟨⟨after, env''⟩, own'⟩ ⟨sound'', herded'⟩
    rw [ends_bind, ends_first, ends_read]
    split
    · rename_i empty
      have none := sound''.entries_eq_nil.mp empty
      rw [ends_first]
      apply (reseed_yields _ env'').ends
      rintro _ ⟨_, _⟩ ⟨seed, rfl, _⟩
      exact herded.later (herded'.later
        (.of_empty (sound''.reseeded none seed) none (Nat.le_refl _)))
    · exact herded.later herded'

end Table

namespace Call

/-- What the call stores, if it is answered. -/
def entered (own : ρ) : Call K V ρ → List (Entry K V)
  | .insert key value => [⟨key, value⟩]
  | .getOrInsert key default f => [⟨key, f (default own).1⟩]
  | .extend pairs => pairs.map fun pair => ⟨pair.1, pair.2⟩
  | _ => []

/-- A call that goes over all entries to drop some. -/
def drops : Call K V ρ → Bool
  | .retain _ | .clear => true
  | _ => false

/-- No value of a stray is changed in place. -/
def Plain (reading : Reading K) : Call K V ρ → Prop
  | .retain f => ∀ key value own, reading.Stray key → (f key value own).1.1 = value
  | .sweep writes => ∀ f ∈ writes, f = id
  | _ => True

end Call

namespace Map

variable {map : Map K V} {env : Env δ} {own : ρ} {drops : Bool}

section

variable (follows : scheme.Follows reading) (apart : reading.StraysApart)
  (sound : map.Sound (reading.rules True))
include follows apart sound

theorem claim_herds (hash : UInt64) (keys : KeyEnv δ)
    (run : scheme.hashKey key map.table.seed env.keys = (.ok hash, keys)) :
    Ends (Table.claim scheme key hash) (map.table, { env with keys })
      (fun claim s => Stores scheme key hash
        (fun s => Table.Herded reading drops 0 map.table s.1)
        (fun value s => Table.Herded reading drops (strays reading [⟨key, value⟩]) map.table s.1)
        s claim)
      (fun failure s => ¬ failure.Aborts → Table.Herded reading drops 0 map.table s.1) :=
  Table.claim_herds follows apart sound.table ⟨env.keys, congrArg Prod.fst run⟩

theorem insert?_herds (value : V) :
    Ends (insert? scheme key value) (map, env)
      (fun _ s =>
        Table.Herded reading drops (strays reading [⟨key, value⟩]) map.table s.1.table)
      (fun failure s => ¬ failure.Aborts → Table.Herded reading drops 0 map.table s.1.table) := by
  refine (insert?_ends_of sound.free (claim_herds follows apart sound)
    (fun _ _ _ => .refl _) value).mono ?_ fun _ _ herded calm => (herded calm).1
  rintro _ s ⟨written | entered, _⟩
  · exact written.mono (Multiset.zero_le _)
  · exact entered

theorem getOrInsert?_herds (default : StateM ρ V) (f : V → V) :
    Ends (getOrInsert? scheme key (.ok <$> default) f) ((map, env), own)
      (fun _ s => Table.Herded reading drops (strays reading [⟨key, f (default own).1⟩]) map.table
        s.1.1.table)
      (fun failure s => ¬ failure.Aborts →
        Table.Herded reading drops 0 map.table s.1.1.table) := by
  refine (getOrInsert?_ends_of sound.free (claim_herds follows apart sound)
    (fun _ _ _ => .refl _) _ f).mono ?_ fun _ _ herded calm => (herded calm).1
  rintro _ s ⟨written | ⟨value, answer, entered⟩, _⟩
  · exact written.mono (Multiset.zero_le _)
  · rw [show (default own).1 = value from Except.ok.inj answer]
    exact entered

theorem adjust_herds (f : V → V) :
    Leads (adjust scheme key f) (map, env)
      fun s => Table.Herded reading drops 0 map.table s.1.table := by
  unfold adjust Leads
  have sought : Ends (map.position? scheme key) env.keys
      (fun found _ => Sought (reading.rules True) scheme key map found)
      (fun failure _ => scheme.Fails env.grants key failure) := position?_ends sound env.keys
  rw [ends_bind, ends_read, ends_bind, ends_onKeys, ends_orAbort]
  refine sought.mono ?_ fun _ _ _ _ => .refl _
  rintro (_ | pos) keys found
  · exact .refl _
  · obtain ⟨top, entry, holds, judges⟩ := found
    have stored := (known_of_judges follows apart judges).2
    simp only
    rw [ends_bind, ends_onTable, Table.ends_updateEntry holds]
    exact .put sound.table holds stored stored
      (sound.table.put holds { entry with value := f entry.value } fun _ _ _ h => h).1

theorem removePair?_herds :
    Leads (removePair? scheme key) (map, env)
      fun s => Table.Herded reading drops 0 map.table s.1.table :=
  (removePair?_leads_of sound.free (fun _ _ _ _ => Table.delete_herds follows apart sound.table)
    (fun _ _ => .refl _) fun _ _ _ => .refl _).mono fun _ => And.left

end

theorem clear_herds (sound : map.Sound (reading.rules True)) :
    Leads (clear : MapAction K V δ Unit) (map, env)
      fun s => Table.Herded reading true 0 map.table s.1.table := by
  unfold clear Leads
  rw [ends_writing sound.free, ends_onTable]
  exact Ends.mono (Table.clear_herds sound.table) (fun _ _ herded => herded)
    fun _ _ herded => herded

theorem retain_herds (follows : scheme.Follows reading)
    {f : K → V → StateM ρ (V × Except String Bool)}
    (plain : ∀ key value own, reading.Stray key → (f key value own).1.1 = value)
    (sound : map.Sound (reading.rules True)) :
    Leads (retain scheme f) ((map, env), own)
      fun s => Table.Herded reading true 0 map.table s.1.1.table := by
  unfold Leads
  rw [ends_retain sound.free]
  exact Ends.mono (Table.retain_herds follows plain sound.table) (fun _ _ herded => herded)
    fun _ _ herded => herded

theorem extend_herds (follows : scheme.Follows reading) (apart : reading.StraysApart)
    (pairs : List (K × V)) : ∀ {map : Map K V} {env : Env δ}, map.Sound (reading.rules True) →
    Ends (extend scheme pairs) (map, env)
      (fun _ s => Table.Herded reading drops
        (strays reading (pairs.map fun pair => ⟨pair.1, pair.2⟩)) map.table s.1.table)
      (fun failure _ => failure.Aborts) := by
  induction pairs with
  | nil => exact fun _ => .refl _
  | cons pair pairs ih =>
    intro map env sound
    change Ends (do discard (insert scheme pair.1 pair.2); extend scheme pairs) _ _ _
    rw [ends_bind, ends_discard]
    unfold insert
    rw [ends_orAbort]
    have herds : Ends (insert? scheme pair.1 pair.2) (map, env)
        (fun _ s => Table.Herded reading drops (strays reading [⟨pair.1, pair.2⟩]) map.table
          s.1.table) _ := insert?_herds follows apart sound pair.2
    refine ((insert?_ends (reading.rules_keptBy follows.reproduces True) sound pair.2 env).both herds).mono ?_
      fun failure _ _ => ?_
    · rintro _ ⟨between, env'⟩ ⟨written, herded⟩
      refine (ih ⟨written.table.sound, written.table.snug, written.free⟩).mono ?_
        fun _ _ aborts => aborts
      intro _ s herded'
      rw [List.map_cons, strays_cons]
      exact herded.trans herded'
    · cases failure with
      | fault met => exact ⟨_, rfl⟩
      | abort cause => exact ⟨_, rfl⟩

end Map

namespace Sweep

variable {map : Map K V} {env : Env δ} {drops : Bool}

/-- A walk that writes nothing leaves its map as it is. -/
theorem through_idle (writes : List (V → V)) (plain : ∀ f ∈ writes, f = id) : ∀ {sweep : Sweep},
    Leaves (fun s : Map K V × Env δ => s.1)
      (through writes sweep : MapAction K V δ (List (K × V) × Sweep)) := by
  induction writes with
  | nil => exact leaves_pure
  | cons f writes ih =>
    intro sweep
    obtain rfl := plain f (.head _)
    apply next_idle.bind
    rintro ⟨_ | pair, sweep⟩
    · exact leaves_pure
    · exact (ih fun f mem => plain f (.tail _ mem)).bind fun _ => leaves_pure

theorem ofMap_herds (follows : scheme.Follows reading) (sound : map.Sound (reading.rules True)) :
    Leads (ofMap scheme) (map, env)
      fun s => Table.Herded reading drops 0 map.table s.1.table := by
  have kept := reading.rules_keptBy follows.reproduces True
  refine ofMap_ends sound.free ((Table.finishGrowth_ends kept sound.table env).mono ?_
    fun _ _ stalled => stalled.elim)
  rintro _ s ⟨shifts, _⟩ word keys
  exact (Table.Herded.drifts follows sound.table shifts.drifts).2

end Sweep

namespace Call

/-- A call adds the strays it stores and moves no others. Only those that drop entries take any. -/
theorem attempt_herds {map : Map K V} {env : Env δ} {own : ρ} (follows : scheme.Follows reading)
    (apart : reading.StraysApart) (sound : map.Sound (reading.rules True)) {call : Call K V ρ}
    (plain : call.Plain reading) :
    Ends (call.attempt scheme) ((map, env), own)
      (fun _ s => Table.Herded reading call.drops (strays reading (call.entered own)) map.table
        s.1.1.table)
      (fun failure s => ¬ failure.Aborts →
        Table.Herded reading call.drops 0 map.table s.1.1.table) := by
  have reads {α : Type} {act : Map K V → Action (KeyEnv δ) α} {answer : α → Answer K V} :
      Leads (first do return answer (← Map.onKeys (act (← Map.read)))) ((map, env), own)
        fun s => Table.Herded reading false 0 map.table s.1.1.table :=
    ends_reading.mpr (ends_run.mono (fun _ _ _ => .refl _) fun _ _ _ _ => .refl _)
  cases call with
  | insert key value =>
    exact ends_map.mpr (ends_first.mpr (Map.insert?_herds follows apart sound value))
  | getOrInsert key default f =>
    exact ends_map.mpr (Map.getOrInsert?_herds follows apart sound default f)
  | get =>
    unfold attempt
    exact reads
  | getPair =>
    unfold attempt
    exact reads
  | contains =>
    unfold attempt
    exact reads
  | adjust key f => exact ends_map.mpr (ends_first.mpr (Map.adjust_herds follows apart sound f))
  | remove key =>
    exact ends_map.mpr (ends_first.mpr (leads_map.mpr (Map.removePair?_herds follows apart sound)))
  | removePair key =>
    exact ends_map.mpr (ends_first.mpr (Map.removePair?_herds follows apart sound))
  | extend pairs =>
    exact ends_map.mpr (ends_first.mpr ((Map.extend_herds follows apart pairs sound).mono
      (fun _ _ herded => herded) fun _ _ aborts calm => absurd aborts calm))
  | clear => exact ends_map.mpr (ends_first.mpr (Map.clear_herds sound))
  | retain f => exact ends_map.mpr (Map.retain_herds follows plain sound)
  | sweep writes =>
    unfold attempt
    rw [ends_first, ends_bind]
    refine Ends.mono (Sweep.ofMap_herds follows sound) ?_ fun _ _ herded => herded
    intro sweep s herded
    have still : Ends (Sweep.through writes sweep) s (fun _ s' => s'.1 = s.1)
        fun _ s' => s'.1 = s.1 := ends_state.mpr (Sweep.through_idle writes plain s)
    rw [ends_bind]
    refine still.mono (fun _ s' same => ?_) fun _ s' same _ => ?_
    · rw [ends_pure, same]
      exact herded
    · rw [same]
      exact herded
  | list =>
    unfold attempt
    exact reads
  | len => exact .refl _

end Call

end GradualMap
