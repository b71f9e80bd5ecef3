import GradualMap.Proofs.Growth
import GradualMap.Proofs.Load
import GradualMap.Proofs.Probe
import GradualMap.Table.Assign

/-!
Making room for a key. A claim starts at most one resize of its own: an old array of more than two
chains outlasts the write that starts it, and a smaller table is not full again after it was grown.
-/

namespace GradualMap

variable {K V δ : Type}

/-- The failures of a write that are neither a refusal nor a caller's own. -/
def KeyScheme.Breaks (scheme : KeyScheme K δ) (grants : Nat → Bool) (failure : Failure) : Prop :=
  scheme.Balks failure ∨ Denied grants failure

namespace Table

open GradualMap.Action

/-- A table of one or two chains has no resize in flight between two writes, and is not full. -/
def Snug (table : Table K V) : Prop :=
  table.exponent ≤ 1 → table.resize = none ∧ overloaded table.count table.exponent = false

/-- The same entries, in an array that may have grown. -/
structure Regrown (before after : Table K V) : Prop where
  entries : after.entries.Perm before.entries
  count : after.count = before.count
  seed : after.seed = before.seed
  exponent_le : before.exponent ≤ after.exponent

theorem Regrown.refl (table : Table K V) : Regrown table table :=
  ⟨.refl _, rfl, rfl, Nat.le_refl _⟩

theorem Regrown.trans {before between after : Table K V} (first : Regrown before between)
    (second : Regrown between after) : Regrown before after where
  entries := second.entries.trans first.entries
  count := second.count.trans first.count
  seed := second.seed.trans first.seed
  exponent_le := Nat.le_trans first.exponent_le second.exponent_le

theorem Steady.regrown {before after : Table K V} (h : Steady before after) :
    Regrown before after :=
  ⟨h.entries, h.count, h.seed, Nat.le_of_eq h.exponent.symm⟩

theorem Started.regrown {before after : Table K V} (h : Started before after) :
    Regrown before after where
  entries := .of_eq h.entries
  count := h.count
  seed := h.seed
  exponent_le := by
    rw [h.exponent]
    split <;> omega

/-- What a claim hands out: the slot of a key judged the same, or the first free slot of the chain
of the hash, where no key was. -/
def Granted (table : Table K V) (scheme : KeyScheme K δ) (key : K) (hash : UInt64) :
    Claim → Prop
  | .occupied pos => pos.era = .current ∧ pos.index = bucketIndex hash table.exponent ∧
      ∃ entry, table.Holds pos (topHash hash) entry ∧ scheme.Judges key entry.key true
  | .vacant index offset => index = bucketIndex hash table.exponent ∧
      index < table.current.size ∧ table.Settled index ∧
      (table.current.chainAt index).slots.findIdx? (·.tag.isEmpty) = some offset ∧
      table.Located scheme key hash none ∧
      (table.exponent ≤ 1 → overloaded (table.count + 1) table.exponent = false)

variable {rules : Rules K} {scheme : KeyScheme K δ} {key : K} {hash : UInt64}
  {table : Table K V} {env : Env δ} {grants : Nat → Bool} {stalls : Failure → Prop}

theorem idle_of_mustGrow (must : table.mustGrow = true) : table.resize = none := by
  simp only [mustGrow, Bool.and_eq_true, Option.isNone_iff_eq_none] at must
  exact must.1

theorem allocated_started (table : Table K V) : table.started.current.size ≠ 0 := by
  have pos := bucketCount_pos table.started.exponent
  simp only [started, BucketArray.size_ofExponent] at pos ⊢
  omega

/-- Entries may go, and a resize may end. -/
theorem Snug.mono {before after : Table K V} (snug : Snug before)
    (exponent : after.exponent = before.exponent)
    (idle : before.resize = none → after.resize = none) (count : after.count ≤ before.count) :
    Snug after := by
  intro small
  rw [exponent] at small ⊢
  obtain ⟨none, room⟩ := snug small
  exact ⟨idle none, overloaded_mono count room⟩

theorem Steady.snug {before after : Table K V} (steady : Steady before after)
    (idle : before.resize = none → after.resize = none) (snug : Snug before) : Snug after :=
  snug.mono steady.exponent idle (Nat.le_of_eq steady.count)

/-- One or two chains have, once grown, room for another entry. -/
theorem calm_of_small {exponent count overflowCount : Nat} (small : exponent ≤ 1)
    (room : count ≤ ceiling exponent) (scattered : bucketSize * overflowCount ≤ count) :
    let grown := if overloaded (count + 1) exponent then exponent + 1 else exponent
    overloaded (count + 1) grown = false ∧ tooScattered overflowCount grown = false := by
  have sizes : bucketCount 0 = 1 ∧ bucketCount 1 = 2 ∧ bucketCount 2 = 4 := ⟨rfl, rfl, rfl⟩
  obtain rfl | rfl : exponent = 0 ∨ exponent = 1 := by omega
  · cases bigger : overloaded (count + 1) 0 <;>
      simp [overloaded_eq_true, overloaded_eq_false, ceiling, tooScattered, bucketSize, sizes]
        at room scattered bigger ⊢ <;> omega
  · cases bigger : overloaded (count + 1) 1 <;>
      simp [overloaded_eq_true, overloaded_eq_false, ceiling, tooScattered, bucketSize, sizes]
        at room scattered bigger ⊢ <;> omega

/-- A table of one or two chains that was grown, and has ended its resize, takes another entry. -/
theorem roomy_of_grown {before fresh after : Table K V}
    (room : before.exponent ≤ 1 → before.count ≤ ceiling before.exponent)
    (sound : before.Sound rules) (allocated : before.current.size ≠ 0)
    (started : Started before fresh) (steady : Steady fresh after)
    (ended : ∀ resize, fresh.resize = some resize → resize.Fresh →
      (after.resize = none ↔ resize.array.size ≤ 2)) :
    after.mustGrow = false ∧
      (after.exponent ≤ 1 →
        after.resize = none ∧ overloaded (after.count + 1) after.exponent = false) := by
  obtain ⟨resize, growing, isFresh, array⟩ := started.fresh
  have ended := ended resize growing isFresh
  have size := sound.size_eq allocated
  rw [array, size] at ended
  have exponent := steady.exponent.trans started.exponent
  have count := steady.count.trans started.count
  by_cases small : before.exponent ≤ 1
  · have scattered : bucketSize * after.overflowCount ≤ before.count := by
      have paid := steady.overflow
      have total := (started.entries ▸ steady.entries).length_eq
      rw [started.overflow, started.empty] at paid
      rw [← sound.count, entries, List.length_append] at total
      simp only [List.length_nil] at paid
      omega
    have calm : overloaded (after.count + 1) after.exponent = false ∧
        tooScattered after.overflowCount after.exponent = false := by
      rw [exponent, count]
      exact calm_of_small small (room small) scattered
    have none : after.resize = none :=
      ended.mpr (Nat.pow_le_pow_right (by decide : 0 < 2) small)
    exact ⟨by simp [mustGrow, calm.1, calm.2], fun _ => ⟨none, calm.1⟩⟩
  · have large : 2 ^ 2 ≤ bucketCount before.exponent :=
      Nat.pow_le_pow_right (by decide) (by omega)
    have growing : after.resize ≠ none := fun none => by
      have := ended.mp none
      omega
    refine ⟨by simp [mustGrow, growing], fun tiny => ?_⟩
    have := started.regrown.exponent_le
    rw [steady.exponent] at tiny
    omega

/-- The table with one more bucket in a chain, however that was counted. -/
def linked (table : Table K V) (index overflowCount : Nat) : Table K V :=
  { table with current := table.current.link index, overflowCount }

theorem Sound.linked (sound : table.Sound rules) {index : Nat} (bound : index < table.current.size)
    (settled : table.Settled index) (overflowCount : Nat) :
    (table.linked index overflowCount).Sound rules ∧
      (table.linked index overflowCount).entries.Perm table.entries := by
  have written := BucketArray.chainAt_link bound
  have chain := sound.chains index bound
  have here := (written index).trans (if_pos rfl)
  have others (i : Nat) (ne : i ≠ index) := (written i).trans (if_neg ne)
  have size := BucketArray.size_link table.current index
  obtain ⟨rest, before, after⟩ := entries_write_current bound size others
  have same : (table.linked index overflowCount).entries.Perm table.entries := by
    rw [here, Chain.entries, Chain.live_link] at after
    exact after.trans before.symm
  refine ⟨sound.write_current settled size others (here ▸ ⟨?_, ?_⟩) _ _ ?_, same⟩
  · rw [Chain.slots_link]
    exact chain.tidy.append_empty bucketSize
  · rw [Chain.live_link]
    exact chain.placed
  · exact sound.count.trans same.length_eq.symm

theorem linkOverflow_yields (table : Table K V) (index : Nat) (env : Env δ) :
    Yields (linkOverflow index) (table, env) fun _ s => ∃ overflowCount,
      s.1 = table.linked index overflowCount ∧
      Counted table.exponent table.overflowCount overflowCount ∧
      s.2.log = .overflowLinked overflowCount (table.current.link index).linked :: env.log := by
  unfold linkOverflow Yields
  rw [ends_bind, ends_modify, ends_bind]
  apply (countOverflow_yields _ env).ends
  rintro _ ⟨after, env'⟩ ⟨overflowCount, rfl, counted, log⟩
  exact ⟨overflowCount, rfl, counted, congrArg _ log⟩

/-- A claim that was granted. -/
structure Claimed (rules : Rules K) (scheme : KeyScheme K δ) (key : K) (hash : UInt64)
    (before : Table K V) (claim : Claim) (after : Table K V) : Prop where
  sound : after.Sound rules
  regrown : Regrown before after
  snug : Snug after
  granted : after.Granted scheme key hash claim

/-- A write that broke off before it changed an entry. -/
structure Broken (rules : Rules K) (scheme : KeyScheme K δ) (grants : Nat → Bool)
    (before : Table K V) (failure : Failure) (after : Table K V) : Prop where
  sound : after.Sound rules
  regrown : Regrown before after
  snug : Snug after
  breaks : scheme.Breaks grants failure

theorem Broken.after {before between after : Table K V} {failure : Failure}
    (broken : Broken rules scheme grants between failure after) (regrown : Regrown before between) :
    Broken rules scheme grants before failure after :=
  { broken with regrown := regrown.trans broken.regrown }

/-- A table in which a resize in flight was taken forward, so that chain `index` can be written. -/
structure Readied (scheme : KeyScheme K δ) (index : Nat) (before after : Table K V × Env δ) :
    Prop where
  worked : Worked scheme index (before.1, before.2.log) (after.1, after.2.log)
  exponent : after.1.exponent = before.1.exponent
  memory : after.2.grants = before.2.grants
  ended : ∀ resize, before.1.resize = some resize → resize.Fresh →
    (after.1.resize = none ↔ resize.array.size ≤ 2)

theorem growWork_readies (held : rules.HeldBy scheme stalls) (sound : table.Sound rules)
    (index : Nat) (env : Env δ) :
    Ends (growWork scheme index) (table, env)
      (fun _ s => s.1.Sound rules ∧ Steady table s.1 ∧
        ∀ keys, Readied scheme index (table, env) (s.1, { s.2 with keys }))
      (fun failure _ => stalls failure) := by
  refine ((growWork_ends held sound index env).leaving
    (leaves_growWork : Leaves memory (growWork scheme index))).mono ?_ fun _ _ => And.left
  rintro _ ⟨after, env'⟩ ⟨⟨worked, ended⟩, memory⟩
  obtain ⟨sound', steady⟩ := worked.shifts.sound held sound
  exact ⟨sound', steady, fun keys => ⟨worked, steady.exponent, memory, ended⟩⟩

/-- Moving entries fails only where the scheme stalls on one. -/
theorem growWork_stalls (held : rules.HeldBy scheme stalls) (sound : table.Sound rules)
    (index : Nat) (env : Env δ) {fails : Failure → Table K V × Env δ → Prop}
    (stalled : ∀ failure s, stalls failure → fails failure s) :
    Ends (growWork scheme index) (table, env) (fun _ _ => True) fails :=
  (growWork_readies held sound index env).mono (fun _ _ _ => trivial) stalled

/-- What a search of the current array says about the table. -/
def Answers (table : Table K V) (scheme : KeyScheme K δ) (key : K) (hash : UInt64) : Probe → Prop
  | .found offset => ∃ entry,
      table.Holds ⟨.current, bucketIndex hash table.exponent, offset⟩ (topHash hash) entry ∧
      scheme.Judges key entry.key true
  | .missing free => table.Located scheme key hash none ∧ free =
      (table.current.chainAt (bucketIndex hash table.exponent)).slots.findIdx? (·.tag.isEmpty)

/-- Every write searches the chain of its hash, once nothing is left to be moved there; `moved` says
what is kept meanwhile, and what the write comes to if that fails. -/
theorem search_ends {α : Type} (held : rules.HeldBy scheme stalls) (sound : table.Sound rules)
    (bound : bucketIndex hash table.exponent < table.current.size)
    (kept : Table K V × Env δ → Prop) {next : Chain K V → Probe → TableAction K V δ α}
    {post : α → Table K V × Env δ → Prop} {fails : Failure → Table K V × Env δ → Prop}
    (moved : Ends (growWork scheme (bucketIndex hash table.exponent)) (table, env)
      (fun _ s => ∀ keys, kept (s.1, { s.2 with keys })) fails)
    (balked : ∀ failure s, Readied scheme (bucketIndex hash table.exponent) (table, env) s →
      scheme.Balks failure → fails failure s)
    (answered : ∀ s answer, Readied scheme (bucketIndex hash table.exponent) (table, env) s →
      kept s → Answers s.1 scheme key hash answer →
      Ends (next (s.1.current.chainAt (bucketIndex hash table.exponent)) answer) s post fails) :
    Ends (do
      growWork scheme (bucketIndex hash table.exponent)
      let chain ← .check ((← read).current.fetch (bucketIndex hash table.exponent))
      let answer ← onKeys (chain.probe scheme key hash)
      next chain answer) (table, env) post fails := by
  rw [ends_bind]
  apply ((growWork_readies held sound _ env).both moved).mono ?_ fun _ _ => And.right
  rintro _ ⟨after, env'⟩ ⟨⟨sound', steady, ready⟩, kept⟩
  have bound' : bucketIndex hash after.exponent < after.current.size := by
    rwa [steady.exponent, steady.size]
  have settled : after.Settled (bucketIndex hash after.exponent) :=
    steady.exponent ▸ (ready env'.keys).worked.settled
  have same : bucketIndex hash table.exponent = bucketIndex hash after.exponent := by
    rw [steady.exponent]
  rw [ends_bind, ends_read, ends_bind, ends_check_ok (BucketArray.fetch_eq (same ▸ bound')),
    ends_bind, ends_onKeys, same]
  apply (probe_ends (sound'.chains _ bound').tidy).mono
  · rintro (offset | free) keys probed
    · obtain ⟨j, entry, rfl, slot, judges⟩ := probed
      have holds : after.Holds ⟨.current, bucketIndex hash after.exponent, 0 + j⟩
          (topHash hash) entry := holds_current.mpr ⟨bound', by simpa using slot⟩
      exact same ▸ answered _ _ (ready keys) (kept keys) ⟨entry, holds, judges⟩
    · obtain ⟨rfl, absent⟩ := probed
      have located := (sound'.located_none settled).mpr absent
      exact same ▸ answered _ _ (ready keys) (kept keys) ⟨located, by simp [same]⟩
  · exact fun failure keys balks => balked _ _ (ready keys) balks

/-- Room for one more entry in chain `index`: its first free slot, or else one of a new bucket. -/
inductive Room (index : Nat) (before : Table K V × List Event) :
    Nat → Table K V × List Event → Prop
  | free {offset : Nat}
      (first : (before.1.current.chainAt index).slots.findIdx? (·.tag.isEmpty) = some offset) :
      Room index before offset before
  | linked (full : (before.1.current.chainAt index).slots.findIdx? (·.tag.isEmpty) = none)
      (overflowCount : Nat)
      (counted : Counted before.1.exponent before.1.overflowCount overflowCount) :
      Room index before (before.1.current.chainAt index).slots.length
        (before.1.linked index overflowCount,
          .overflowLinked overflowCount (before.1.current.link index).linked :: before.2)

/-- A table in which room was made is the same but for an empty bucket. -/
structure Roomed (rules : Rules K) (index offset : Nat) (before after : Table K V) : Prop where
  sound : after.Sound rules
  entries : after.entries.Perm before.entries
  count : after.count = before.count
  exponent : after.exponent = before.exponent
  seed : after.seed = before.seed
  resize : after.resize = before.resize
  bound : index < after.current.size
  settled : after.Settled index
  first : (after.current.chainAt index).slots.findIdx? (·.tag.isEmpty) = some offset
  live : (after.current.chainAt index).live = (before.current.chainAt index).live

theorem Room.roomed {index offset : Nat} {before after : Table K V × List Event}
    (room : Room index before offset after) (sound : before.1.Sound rules)
    (bound : index < before.1.current.size) (settled : before.1.Settled index) :
    Roomed rules index offset before.1 after.1 := by
  cases room with
  | free first => exact ⟨sound, .refl _, rfl, rfl, rfl, rfl, bound, settled, first, rfl⟩
  | linked full overflowCount counted =>
    obtain ⟨sound', same⟩ := sound.linked bound settled overflowCount
    have chain := (BucketArray.chainAt_link bound index).trans (if_pos rfl)
    refine ⟨sound', same, rfl, rfl, rfl, rfl, by simpa [Table.linked] using bound, settled, ?_, ?_⟩
    · rw [Table.linked, chain, Chain.slots_link, List.findIdx?_append, full]
      exact congrArg some (Nat.zero_add _)
    · rw [Table.linked, chain, Chain.live_link]

/-- One round of a claim finds the key, or finds room for it, or has to grow the table first. -/
theorem round_ends (held : rules.HeldBy scheme stalls) (sound : table.Sound rules)
    (allocated : table.current.size ≠ 0) {rounds : Nat}
    {post : Claim → Table K V × Env δ → Prop} {fails : Failure → Table K V × Env δ → Prop}
    (moved : Ends (growWork scheme (bucketIndex hash table.exponent)) (table, env)
      (fun _ _ => True) fails)
    (balked : ∀ failure s, Readied scheme (bucketIndex hash table.exponent) (table, env) s →
      scheme.Balks failure → fails failure s)
    (found : ∀ s offset entry, Readied scheme (bucketIndex hash table.exponent) (table, env) s →
      s.1.Holds ⟨.current, bucketIndex hash s.1.exponent, offset⟩ (topHash hash) entry →
      scheme.Judges key entry.key true →
      post (.occupied ⟨.current, bucketIndex hash s.1.exponent, offset⟩) s)
    (full : ∀ s, Readied scheme (bucketIndex hash table.exponent) (table, env) s →
      s.1.mustGrow = true → s.1.Located scheme key hash none →
      Ends (do startGrowth; claimWithin scheme key hash rounds) s post fails)
    (roomy : ∀ between s offset,
      Readied scheme (bucketIndex hash table.exponent) (table, env) between →
      between.1.mustGrow = false → between.1.Located scheme key hash none →
      Room (bucketIndex hash between.1.exponent) (between.1, between.2.log) offset (s.1, s.2.log) →
      post (.vacant (bucketIndex hash between.1.exponent) offset) s) :
    Ends (claimWithin scheme key hash (rounds + 1)) (table, env) post fails := by
  have bound := sound.bucketIndex_lt allocated hash
  unfold claimWithin
  rw [ends_bind, ends_read]
  apply search_ends held sound bound (fun _ => True)
    (moved.mono (fun _ _ _ _ => trivial) fun _ _ => id) balked
  rintro ⟨after, env'⟩ (offset | free) ready - answers
  · obtain ⟨entry, holds, judges⟩ := answers
    have exponent : after.exponent = table.exponent := ready.exponent
    rw [← exponent]
    exact found _ _ _ ready holds judges
  · obtain ⟨absent, rfl⟩ := answers
    have exponent : after.exponent = table.exponent := ready.exponent
    rw [← exponent]
    simp only
    rw [ends_bind, ends_read]
    split
    · rename_i must
      exact full _ ready must absent
    · rename_i must
      have roomy := fun s offset =>
        roomy (after, env') s offset ready (Bool.eq_false_iff.mpr must) absent
      generalize search : (after.current.chainAt
        (bucketIndex hash after.exponent)).slots.findIdx? (·.tag.isEmpty) = free
      cases free with
      | some offset => exact roomy (after, env') offset (.free search)
      | none =>
        simp only
        rw [ends_bind]
        apply (linkOverflow_yields after _ _).ends
        rintro _ ⟨_, env''⟩ ⟨overflowCount, rfl, counted, log⟩
        apply roomy
        rw [log]
        exact .linked search overflowCount counted

/-- Room made in a table that need not grow is granted to a key that is not there. -/
theorem Roomed.claimed {offset : Nat} {before after : Table K V}
    (roomed : Roomed rules (bucketIndex hash before.exponent) offset before after)
    (sound : before.Sound rules) (settled : before.Settled (bucketIndex hash before.exponent))
    (snug : Snug before) (calm : before.mustGrow = false)
    (absent : before.Located scheme key hash none) :
    Claimed rules scheme key hash before (.vacant (bucketIndex hash before.exponent) offset)
      after := by
  refine ⟨roomed.sound, ?_, ?_, ?_, roomed.bound, roomed.settled, roomed.first, ?_, ?_⟩
  · exact ⟨roomed.entries, roomed.count, roomed.seed, Nat.le_of_eq roomed.exponent.symm⟩
  · exact snug.mono roomed.exponent roomed.resize.trans (Nat.le_of_eq roomed.count)
  · rw [roomed.exponent]
  · have settled' := roomed.settled
    rw [← roomed.exponent] at settled'
    refine (roomed.sound.located_none settled').mpr ?_
    rw [roomed.exponent, roomed.live]
    exact (sound.located_none settled).mp absent
  · intro small
    rw [roomed.exponent] at small ⊢
    rw [roomed.count]
    simp only [mustGrow, (snug small).1, Option.isNone_none, Bool.true_and,
      Bool.or_eq_false_iff] at calm
    exact calm.1

/-- One round of a claim. `next` is what follows if the table must grow first. -/
theorem claimRound_ends (held : rules.HeldBy scheme stalls) {rounds : Nat}
    (sound : table.Sound rules) (allocated : table.current.size ≠ 0) (memory : env.grants = grants)
    (next : ∀ after env, env.grants = grants → after.Sound rules → Steady table after →
      (table.resize = none → after.resize = none) →
      (∀ resize, table.resize = some resize → resize.Fresh →
        (after.resize = none ↔ resize.array.size ≤ 2)) →
      Snug after ∧ (after.mustGrow = true →
        Ends (do startGrowth; claimWithin scheme key hash rounds) (after, env)
          (fun claim s => Claimed rules scheme key hash after claim s.1)
          (fun failure s => ¬ stalls failure → Broken rules scheme grants after failure s.1))) :
    Ends (claimWithin scheme key hash (rounds + 1)) (table, env)
      (fun claim s => Claimed rules scheme key hash table claim s.1)
      (fun failure s => ¬ stalls failure → Broken rules scheme grants table failure s.1) := by
  have follow (s : Table K V × Env δ)
      (ready : Readied scheme (bucketIndex hash table.exponent) (table, env) s) :
      s.1.Sound rules ∧ Steady table s.1 ∧ Snug s.1 ∧ (s.1.mustGrow = true →
        Ends (do startGrowth; claimWithin scheme key hash rounds) s
          (fun claim s' => Claimed rules scheme key hash s.1 claim s'.1)
          (fun failure s' => ¬ stalls failure →
            Broken rules scheme grants s.1 failure s'.1)) := by
    obtain ⟨sound', steady⟩ := ready.worked.shifts.sound held sound
    obtain ⟨snug, later⟩ := next s.1 s.2 (ready.memory.trans memory) sound' steady
      ready.worked.idle ready.ended
    exact ⟨sound', steady, snug, later⟩
  apply round_ends held sound allocated
  · exact growWork_stalls held sound _ _ fun failure s stalled calm => absurd stalled calm
  · intro failure s ready balks _
    obtain ⟨sound', steady, snug, _⟩ := follow s ready
    exact ⟨sound', steady.regrown, snug, .inl balks⟩
  · intro s offset entry ready holds judges
    obtain ⟨sound', steady, snug, _⟩ := follow s ready
    exact ⟨sound', steady.regrown, snug, rfl, rfl, entry, holds, judges⟩
  · intro s ready full _
    obtain ⟨_, steady, _, later⟩ := follow s ready
    apply (later full).mono
    · exact fun claim s h => { h with regrown := steady.regrown.trans h.regrown }
    · exact fun failure s h calm => (h calm).after steady.regrown
  · intro between s offset ready calm absent room
    obtain ⟨sound', steady, snug, _⟩ := follow between ready
    have settled : between.1.Settled (bucketIndex hash between.1.exponent) :=
      ready.exponent ▸ ready.worked.settled
    have bound := sound'.bucketIndex_lt (steady.size ▸ allocated) hash
    have claimed := (room.roomed sound' bound settled).claimed sound' settled snug calm absent
    exact { claimed with regrown := steady.regrown.trans claimed.regrown }

theorem claimWithin_ends (held : rules.HeldBy scheme stalls) {rounds : Nat}
    (sound : table.Sound rules) (snug : Snug table) (allocated : table.current.size ≠ 0)
    (memory : env.grants = grants) :
    Ends (claimWithin scheme key hash (rounds + 2)) (table, env)
      (fun claim s => Claimed rules scheme key hash table claim s.1)
      (fun failure s => ¬ stalls failure → Broken rules scheme grants table failure s.1) := by
  refine claimRound_ends held sound allocated memory
    fun before env memory sound' steady ended _ => ?_
  have snug' := steady.snug ended snug
  refine ⟨snug', fun full => ?_⟩
  have allocated' : before.current.size ≠ 0 := steady.size ▸ allocated
  have idle := idle_of_mustGrow full
  rw [ends_bind]
  have size := sound'.size_eq allocated'
  apply ((startGrowth_ends sound' allocated' env).leaving leaves_startGrowth).mono
  · rintro _ ⟨_, env⟩ ⟨⟨rfl, small, -⟩, same⟩
    have sound'' := sound'.started idle size small
    have started := started_spec sound' idle
    refine (claimRound_ends held sound'' (allocated_started before) (Eq.trans same memory)
      fun after env _ sound₃ steady' _ fresh => ?_).mono
      (fun claim s h => { h with regrown := started.regrown.trans h.regrown })
      (fun failure s h calm => (h calm).after started.regrown)
    obtain ⟨calm, room⟩ := roomy_of_grown (fun small => le_ceiling (snug' small).2) sound'
      allocated' started steady' fresh
    refine ⟨fun small => ⟨(room small).1, overloaded_mono (Nat.le_succ _) (room small).2⟩,
      fun full => ?_⟩
    rw [calm] at full
    cases full
  · rintro failure _ ⟨⟨rfl, denied⟩, _⟩ _
    exact ⟨sound', .refl _, snug', .inr (memory ▸ denied)⟩

/-- The table with an array. -/
def reserved (table : Table K V) : Table K V :=
  { table with current := .ofExponent table.exponent }

theorem allocated_reserved (table : Table K V) : table.reserved.current.size ≠ 0 := by
  have pos := bucketCount_pos table.exponent
  simp only [reserved, BucketArray.size_ofExponent]
  omega

theorem Sound.reserved (sound : table.Sound rules) (bare : table.current.size = 0) :
    table.reserved.Sound rules ∧ table.reserved.entries = table.entries := by
  obtain ⟨_, zero, idle⟩ := sound.allocated.resolve_right fun h => by
    have := bucketCount_pos table.exponent
    omega
  have none : table.current.entries = [] :=
    BucketArray.entries_eq_nil fun i bound => absurd bound (by omega)
  have same : table.reserved.entries = table.entries := by
    simp [Table.reserved, entries, former, idle, none]
  refine ⟨⟨?_, .inr ⟨by simp [Table.reserved], ?_⟩, fun i bound => ?_, ?_⟩, same⟩
  · rw [same]
    exact sound.count
  · rw [Table.reserved, zero]
    decide
  · rw [Table.reserved, BucketArray.chainAt_ofExponent]
    exact Chain.sound_empty
  · intro resize growing
    rw [Table.reserved, idle] at growing
    cases growing

/-- The array of a new table is allocated by its first write. -/
theorem reserve_ends (sound : table.Sound rules) (env : Env δ) :
    Ends reserve (table, env)
      (fun _ s => s.2.log = env.log ∧
        (table.current.size ≠ 0 ∧ s.1 = table ∨ table.current.size = 0 ∧ s.1 = table.reserved))
      (fun failure s => s = (table, env) ∧ table.resize = none ∧ Denied env.grants failure) := by
  unfold reserve
  simp only [ends_bind, ends_read]
  split
  · rename_i allocated
    exact ⟨rfl, .inl ⟨by simpa [BucketArray.isAllocated] using allocated, rfl⟩⟩
  · rename_i unallocated
    have bare : table.current.size = 0 := by
      simpa [BucketArray.isAllocated] using unallocated
    obtain ⟨_, zero, idle⟩ := sound.allocated.resolve_right fun h => by
      have := bucketCount_pos table.exponent
      omega
    rw [ends_bind, ends_second]
    apply (Env.allocate_ends (by rw [zero]; decide)).mono
    · rintro _ env ⟨rfl, rfl, _⟩
      exact ⟨rfl, .inr ⟨bare, rfl⟩⟩
    · rintro failure env ⟨denied, rfl⟩
      exact ⟨rfl, idle, denied⟩

/-- A claim is granted or breaks off, unless the scheme stalls on an entry that is to be moved. -/
theorem claim_ends_of_held (held : rules.HeldBy scheme stalls) (sound : table.Sound rules)
    (snug : Snug table) (env : Env δ) :
    Ends (claim scheme key hash) (table, env)
      (fun claim s => Claimed rules scheme key hash table claim s.1)
      (fun failure s => ¬ stalls failure →
        Broken rules scheme env.grants table failure s.1) := by
  unfold claim
  rw [ends_bind]
  apply ((reserve_ends sound env).leaving (leaves_reserve : Leaves memory _)).mono
  · rintro _ ⟨_, env'⟩ ⟨⟨-, ⟨allocated, rfl⟩ | ⟨bare, rfl⟩⟩, same⟩
    · exact claimWithin_ends held sound snug allocated same
    · obtain ⟨sound', entries⟩ := sound.reserved bare
      have regrown : Regrown table table.reserved := ⟨.of_eq entries, rfl, rfl, Nat.le_refl _⟩
      exact (claimWithin_ends held sound' snug (allocated_reserved table) same).mono
        (fun claim s h => { h with regrown := regrown.trans h.regrown })
        (fun failure s h calm => (h calm).after regrown)
  · rintro failure _ ⟨⟨rfl, _, denied⟩, _⟩ _
    exact ⟨sound, .refl _, snug, .inr denied⟩

/-- The table with one more entry, in a free slot. -/
def filled (table : Table K V) (index offset : Nat) (hash : UInt64) (entry : Entry K V) :
    Table K V :=
  { table with
    current := table.current.setSlot index offset (.full (topHash hash) entry)
    count := table.count + 1 }

theorem ends_fill {index offset : Nat} {entry : Entry K V}
    {post : Unit → Table K V × Env δ → Prop} {fails : Failure → Table K V × Env δ → Prop} :
    Ends (fill index offset hash entry) (table, env) post fails ↔
      post () (table.filled index offset hash entry, env) :=
  Iff.rfl

theorem Sound.filled (sound : table.Sound rules) {index offset : Nat}
    (bound : index < table.current.size) (settled : table.Settled index)
    (free : (table.current.chainAt index).slots.findIdx? (·.tag.isEmpty) = some offset)
    {entry : Entry K V}
    (admits : rules.admits table.seed table.current.size index (topHash hash) entry.key) :
    (table.filled index offset hash entry).Sound rules ∧
      (table.filled index offset hash entry).entries.Perm (entry :: table.entries) := by
  have written := BucketArray.chainAt_setSlot bound offset (.full (topHash hash) entry)
  have size := BucketArray.size_setSlot table.current index offset (.full (topHash hash) entry)
  have others (i : Nat) (ne : i ≠ index) := (written i).trans (if_neg ne)
  have here := (written index).trans (if_pos rfl)
  obtain ⟨chain, shown⟩ := (sound.chains index bound).fill free admits
  obtain ⟨rest, before, after⟩ := entries_write_current bound size others
  have more : (table.filled index offset hash entry).entries.Perm (entry :: table.entries) :=
    after.trans ((here ▸ shown.append_right rest).trans (before.symm.cons entry))
  refine ⟨sound.write_current settled size others (here ▸ chain) _ _ ?_, more⟩
  rw [sound.count]
  exact more.length_eq.symm

/-- An entry is stored in the slot it was granted. -/
theorem fill_yields (sound : table.Sound rules) (snug : Snug table) {index offset : Nat}
    (granted : table.Granted scheme key hash (.vacant index offset)) {entry : Entry K V}
    (admits : rules.admits table.seed table.current.size index (topHash hash) entry.key)
    (env : Env δ) :
    Yields (fill index offset hash entry) (table, env) fun _ s => s.1.Sound rules ∧ Snug s.1 ∧
      s.1.entries.Perm (entry :: table.entries) ∧ s.1.seed = table.seed ∧
      s.1.exponent = table.exponent := by
  obtain ⟨_, bound, settled, free, _, room⟩ := granted
  obtain ⟨sound', more⟩ := sound.filled bound settled free admits
  rw [Yields, ends_fill]
  exact ⟨sound', fun small => ⟨(snug small).1, room small⟩, more, rfl, rfl⟩

end Table

end GradualMap
