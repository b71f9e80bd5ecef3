import GradualMap.Proofs.Claim
import GradualMap.Table.Remove

/-!
Removing one entry, or all. A removal takes the entry of a key judged the same and no other; a table
that runs empty gets a new seed, which is the only time a seed changes.
-/

namespace GradualMap

open GradualMap.Action

variable {K V δ : Type}

/-- A live slot of a chain may be emptied. -/
theorem Chain.Sound.remove {rules : Rules K} {seed : UInt64} {size index offset : Nat}
    {chain : Chain K V} {top : UInt8} {entry : Entry K V}
    (sound : chain.Sound rules seed size index)
    (slot : chain.slots[offset]? = some (.full top entry)) :
    ((chain.set offset .hole).settleAt offset).Sound rules seed size index ∧
      chain.entries.Perm (entry :: ((chain.set offset .hole).settleAt offset).entries) := by
  obtain ⟨rest, before, after⟩ := Row.live_set slot
  have shown := after .hole
  rw [Slot.live?_full, Option.toList_some, List.singleton_append] at before
  rw [Slot.live?_hole, Option.toList_none, List.nil_append] at shown
  have full : (Slot.full top entry).IsFull :=
    ⟨top, entry, sound.tidy.minTopHash_le (before.mem_iff.mpr (.head _)), rfl⟩
  have settled := Chain.live_remove sound.tidy slot full
  have live : ((chain.set offset .hole).settleAt offset).live.Perm rest := settled ▸ shown
  refine ⟨⟨Chain.tidy_settleAt sound.tidy slot full, fun item mem => ?_⟩, ?_⟩
  · exact sound.placed item (before.mem_iff.mpr (.tail _ (live.mem_iff.mp mem)))
  · exact (before.trans (live.symm.cons _)).map (·.2)

namespace Table

variable {rules : Rules K} {scheme : KeyScheme K δ} {key : K} {hash : UInt64}
  {table : Table K V} {env : Env δ} {top : UInt8} {entry : Entry K V}

/-- Nothing is stored under the key: every entry that its hash leads to was judged to be another. -/
def Absent (rules : Rules K) (scheme : KeyScheme K δ) (key : K) (table : Table K V) : Prop :=
  table.entries = [] ∨ ∃ hash between, scheme.Hashes key table.seed hash ∧
    between.Sound rules ∧ Regrown table between ∧ between.Located scheme key hash none

/-- The table a removal at a slot comes to, but for a new seed. -/
def without (table : Table K V) (index offset : Nat) : Table K V :=
  { table with
    current := (table.current.setSlot index offset .hole).modify index (·.settleAt offset)
    count := table.count - 1 }

theorem Sound.without {index offset : Nat} {top : UInt8} {entry : Entry K V}
    (sound : table.Sound rules) (holds : table.Holds ⟨.current, index, offset⟩ top entry) :
    (table.without index offset).Sound rules ∧
      table.entries.Perm (entry :: (table.without index offset).entries) := by
  obtain ⟨bound, slot⟩ := holds_current.mp holds
  have settled := sound.settled_of_live bound (Row.mem_live.mpr (List.mem_of_getElem? slot))
  obtain ⟨chain, shown⟩ := (sound.chains index bound).remove slot
  let array := (table.current.setSlot index offset .hole).modify index (·.settleAt offset)
  have size : array.size = table.current.size := by simp [array]
  have written := BucketArray.chainAt_modify_setSlot bound offset .hole (·.settleAt offset)
  have others (i : Nat) (ne : i ≠ index) := (written i).trans (if_neg ne)
  have here := (written index).trans (if_pos rfl)
  obtain ⟨rest, before, after⟩ := entries_write_current bound size others
  have one : table.entries.Perm (entry :: (table.without index offset).entries) :=
    before.trans ((shown.append_right rest).trans ((here ▸ after).symm.cons entry))
  refine ⟨sound.write_current settled size others (here ▸ chain) _ _ ?_, one⟩
  rw [sound.count, one.length_eq]
  rfl

/-- A seed may be drawn anew while there is no entry to hash. -/
theorem Sound.reseeded (sound : table.Sound rules) (empty : table.entries = []) (seed : UInt64) :
    Sound rules { table with seed } := by
  have nowhere {i : Nat} : ¬ ((∃ entry, i < table.current.size ∧
      entry ∈ (table.current.chainAt i).entries) ∨ ∃ resize, table.resize = some resize ∧
        ∃ entry, i < resize.array.size ∧ entry ∈ (resize.array.chainAt i).entries) := by
    rintro (⟨entry, bound, mem⟩ | ⟨resize, growing, entry, bound, mem⟩)
    · have known := mem_entries.mpr (.inl ⟨i, bound, mem⟩)
      rw [empty] at known
      cases known
    · have known := mem_entries.mpr (.inr ⟨resize, growing, i, bound, mem⟩)
      rw [empty] at known
      cases known
  refine ⟨sound.count, sound.allocated, fun i bound => ⟨(sound.chains i bound).tidy, ?_⟩, ?_⟩
  · exact fun item mem => absurd (.inl ⟨_, bound, List.mem_map_of_mem mem⟩) nowhere
  · intro resize growing
    have inUse := sound.resizing resize growing
    refine ⟨inUse.size, inUse.cursor_lt, inUse.passed, fun old bound => ?_⟩
    rcases inUse.chains old bound with vacated | waiting
    · exact .inl vacated
    · refine .inr ⟨⟨waiting.sound.tidy, fun item mem => ?_⟩, waiting.low, waiting.high⟩
      exact absurd (.inr ⟨resize, growing, _, bound, List.mem_map_of_mem mem⟩) nowhere

theorem ends_countDown (filled : table.count ≠ 0) {post : Unit → Table K V × Env δ → Prop}
    {fails : Failure → Table K V × Env δ → Prop} :
    Ends countDown (table, env) post fails ↔
      post () ({ table with count := table.count - 1 }, env) := by
  unfold countDown
  rw [ends_bind, ends_read, if_neg filled, ends_modify]

/-- The new seed is the next word of the random stream. -/
theorem ends_reseed {post : Unit → Table K V × Env δ → Prop}
    {fails : Failure → Table K V × Env δ → Prop} :
    Ends reseed (table, env) post fails ↔ post () ({ table with seed := env.keys.draws.next.1 },
      { env with keys := { env.keys with draws := env.keys.draws.next.2 } }) :=
  Iff.rfl

theorem reseed_yields (table : Table K V) (env : Env δ) :
    Yields reseed (table, env) fun _ s =>
      ∃ seed, s.1 = { table with seed } ∧ s.2.log = env.log :=
  ends_reseed.mpr ⟨_, rfl, rfl⟩

/-- What a removal by hash comes to. -/
def Deleted (rules : Rules K) (scheme : KeyScheme K δ) (key : K) (hash : UInt64)
    (before : Table K V) (answer : Option (K × V)) (after : Table K V) : Prop :=
  match answer with
  | none => Regrown before after ∧ (before.entries = [] ∨ ∃ between : Table K V,
      between.Sound rules ∧ Regrown before between ∧ between.Located scheme key hash none)
  | some pair => after.exponent = before.exponent ∧
      (after.seed = before.seed ∨ after.entries = []) ∧
      ∃ entry, pair = (entry.key, entry.value) ∧ scheme.Judges key entry.key true ∧
        before.entries.Perm (entry :: after.entries)

/-- A table that an entry was taken out of, next to what it has reported. One that runs empty draws a
new seed. -/
inductive Emptier (table : Table K V) (log : List Event) (index offset : Nat) :
    Table K V × List Event → Prop
  | some (more : (table.without index offset).count ≠ 0) :
      Emptier table log index offset (table.without index offset, log)
  | last (empty : (table.without index offset).count = 0) (seed : UInt64) :
      Emptier table log index offset
        ({ table.without index offset with seed }, .emptied :: log)

theorem ends_delete_of_empty (empty : table.count = 0) {env : Env δ}
    {post : Option (K × V) → Table K V × Env δ → Prop}
    {fails : Failure → Table K V × Env δ → Prop} :
    Ends (delete scheme key hash) (table, env) post fails ↔ post none (table, env) := by
  unfold delete
  simp only [ends_bind, ends_read]
  rw [if_pos empty]
  exact ends_pure

/-- What a removal does once it has found its entry. -/
def takeOut (index offset : Nat) : TableAction K V δ Unit := do
  setCurrent index offset .hole
  modify fun table => { table with current := table.current.modify index (·.settleAt offset) }
  countDown
  if (← read).count = 0 then
    reseed
    record .emptied

theorem takeOut_yields (filled : table.count ≠ 0) (index offset : Nat) (env : Env δ) :
    Yields (takeOut index offset) (table, env)
      fun _ s => Emptier table env.log index offset (s.1, s.2.log) := by
  unfold takeOut Yields
  rw [ends_bind, ends_setCurrent, ends_bind, ends_modify, ends_bind]
  refine (ends_countDown ?_).mpr ?_
  · exact filled
  change Ends _ (table.without index offset, env) _ _
  rw [ends_bind, ends_read]
  split
  · rename_i empty
    rw [ends_bind]
    apply (reseed_yields _ _).ends
    rintro _ ⟨_, env'⟩ ⟨seed, rfl, log⟩
    change Emptier _ _ _ _ (_, .emptied :: env'.log)
    rw [log]
    exact .last empty seed
  · rename_i more
    exact .some more

/-- A removal that has found its entry answers it once it has taken it out. -/
theorem ends_found {index offset : Nat} (holds : table.Holds ⟨.current, index, offset⟩ top entry)
    {post : Option (K × V) → Table K V × Env δ → Prop} {fails : Failure → Table K V × Env δ → Prop}
    (taken : Ends (takeOut index offset) (table, env)
      (fun _ => post (some (entry.key, entry.value))) fails) :
    Ends (do
      let entry ← .check ((← read).entryAt ⟨.current, index, offset⟩)
      setCurrent index offset .hole
      modify fun table => { table with current := table.current.modify index (·.settleAt offset) }
      countDown
      if (← read).count = 0 then
        reseed
        record .emptied
      return some (entry.key, entry.value)) (table, env) post fails := by
  rw [ends_bind, ends_read, ends_bind, ends_check_ok holds.entryAt]
  unfold takeOut at taken
  rw [ends_bind, ends_setCurrent, ends_bind, ends_modify, ends_bind] at taken ⊢
  refine taken.mono (fun _ s later => ?_) fun _ _ => id
  rw [ends_bind, ends_read] at later ⊢
  by_cases empty : s.1.count = 0
  · rw [if_pos empty, ends_bind] at later ⊢
    exact later.mono (fun _ _ told => ends_bind.mpr told) fun _ _ => id
  · rw [if_neg empty] at later ⊢
    exact later

/-- A removal finds no key, or takes out the entry of the key it finds. -/
theorem removal_ends {stalls : Failure → Prop} (held : rules.HeldBy scheme stalls)
    (sound : table.Sound rules) (filled : table.count ≠ 0) {env : Env δ}
    {post : Option (K × V) → Table K V × Env δ → Prop}
    {fails : Failure → Table K V × Env δ → Prop}
    (moved : Ends (growWork scheme (bucketIndex hash table.exponent)) (table, env)
      (fun _ _ => True) fails)
    (balked : ∀ failure s, Readied scheme (bucketIndex hash table.exponent) (table, env) s →
      scheme.Balks failure → fails failure s)
    (missing : ∀ s, Readied scheme (bucketIndex hash table.exponent) (table, env) s →
      s.1.Located scheme key hash none → post none s)
    (found : ∀ between s offset entry,
      Readied scheme (bucketIndex hash table.exponent) (table, env) between →
      between.1.Holds ⟨.current, bucketIndex hash between.1.exponent, offset⟩ (topHash hash)
        entry → scheme.Judges key entry.key true →
      Emptier between.1 between.2.log (bucketIndex hash between.1.exponent) offset
        (s.1, s.2.log) → post (some (entry.key, entry.value)) s) :
    Ends (delete scheme key hash) (table, env) post fails := by
  unfold delete
  simp only [ends_bind, ends_read]
  rw [if_neg filled]
  apply search_ends held sound (sound.bucketIndex_lt (sound.allocated_of_filled filled) hash)
    (fun _ => True) (moved.mono (fun _ _ _ _ => trivial) fun _ _ => id) balked
  rintro ⟨between, env'⟩ answer ready - answers
  have exponent : between.exponent = table.exponent := ready.exponent
  rw [← exponent]
  cases answer with
  | missing free => exact missing (between, env') ready answers.1
  | found offset =>
    obtain ⟨entry, holds, judges⟩ := answers
    have filled' : between.count ≠ 0 := by
      rw [(ready.worked.shifts.sound held sound).2.count]
      exact filled
    exact ends_found holds ((takeOut_yields filled' _ offset env').ends fun _ s taken =>
      found (between, env') s offset entry ready holds judges taken)

theorem delete_ends_of_held {stalls : Failure → Prop} (held : rules.HeldBy scheme stalls)
    (sound : table.Sound rules) (snug : Snug table) (grants : Nat → Bool) (env : Env δ) :
    Ends (delete scheme key hash) (table, env)
      (fun answer s => s.1.Sound rules ∧ Snug s.1 ∧ Deleted rules scheme key hash table answer s.1)
      (fun failure s => ¬ stalls failure → Broken rules scheme grants table failure s.1) := by
  by_cases empty : table.count = 0
  · rw [ends_delete_of_empty empty]
    exact ⟨sound, snug, .refl table, .inl (sound.entries_eq_nil.mp empty)⟩
  have follow (s : Table K V × Env δ)
      (ready : Readied scheme (bucketIndex hash table.exponent) (table, env) s) :
      s.1.Sound rules ∧ Steady table s.1 ∧ Snug s.1 := by
    obtain ⟨sound', steady⟩ := ready.worked.shifts.sound held sound
    exact ⟨sound', steady, steady.snug ready.worked.idle snug⟩
  apply removal_ends held sound empty
  · exact growWork_stalls held sound _ _ fun failure s stalled calm => absurd stalled calm
  · intro failure s ready balks _
    obtain ⟨sound', steady, snug'⟩ := follow s ready
    exact ⟨sound', steady.regrown, snug', .inl balks⟩
  · intro s ready located
    obtain ⟨sound', steady, snug'⟩ := follow s ready
    exact ⟨sound', snug', steady.regrown, .inr ⟨s.1, sound', steady.regrown, located⟩⟩
  · rintro between ⟨_, env'⟩ offset entry ready holds judges taken
    obtain ⟨sound', steady, snug'⟩ := follow between ready
    obtain ⟨sound'', one⟩ := sound'.without holds
    have shown := steady.entries.symm.trans one
    have fits : Snug (between.1.without (bucketIndex hash between.1.exponent) offset) :=
      snug'.mono rfl (fun idle => idle) (Nat.sub_le _ _)
    generalize log_eq : env'.log = log at taken
    cases taken with
    | some more =>
      exact ⟨sound'', fits, steady.exponent, .inl steady.seed, entry, rfl, judges, shown⟩
    | last empty seed =>
      have none := sound''.entries_eq_nil.mp empty
      exact ⟨sound''.reseeded none seed, fits, steady.exponent, .inr none, entry, rfl, judges,
        shown⟩

/-- What `clear` makes of a table. -/
def cleared (table : Table K V) (seed : UInt64) : Table K V :=
  { table with
    count := 0
    overflowCount := 0
    current := table.current.reset
    resize := none
    seed }

theorem entries_cleared (table : Table K V) (seed : UInt64) :
    (table.cleared seed).entries = [] := by
  simp [cleared, entries, former]

theorem Sound.cleared (sound : table.Sound rules) (seed : UInt64) :
    (table.cleared seed).Sound rules where
  count := by
    rw [entries_cleared]
    rfl
  allocated := by
    rcases sound.allocated with ⟨size, zero, _⟩ | allocated
    · exact .inl ⟨by simpa [Table.cleared] using size, zero, rfl⟩
    · exact .inr (by simpa [Table.cleared] using allocated)
  chains i bound := by
    rw [Table.cleared, BucketArray.chainAt_reset]
    exact Chain.sound_empty
  resizing resize growing := by cases growing

/-- A table with entries is cleared, and that is reported. -/
theorem clear_ends (table : Table K V) (env : Env δ) :
    Yields clear (table, env) fun _ s => table.count = 0 ∧ s = (table, env) ∨
      table.count ≠ 0 ∧ ∃ seed, s.1 = table.cleared seed ∧
        s.2.log = .cleared table.exponent :: env.log := by
  unfold clear Yields
  rw [ends_bind, ends_read]
  split
  · rename_i empty
    exact .inl ⟨empty, rfl⟩
  · rename_i filled
    rw [ends_bind, ends_modify, ends_bind]
    apply (reseed_yields _ env).ends
    rintro _ ⟨_, env'⟩ ⟨seed, rfl, log⟩
    exact .inr ⟨filled, seed, rfl, congrArg _ log⟩

theorem clear_yields (sound : table.Sound rules) (snug : Snug table) (env : Env δ) :
    Yields clear (table, env) fun _ s => s.1.Sound rules ∧ Snug s.1 ∧ s.1.entries = [] ∧
      s.1.exponent = table.exponent ∧ (s.1.seed = table.seed ∨ table.entries ≠ []) := by
  apply (clear_ends table env).mono
  rintro _ ⟨_, env'⟩ (⟨empty, rfl, rfl⟩ | ⟨stored, seed, rfl, _⟩)
  · exact ⟨sound, snug, sound.entries_eq_nil.mp empty, rfl, .inl rfl⟩
  · refine ⟨sound.cleared seed, fun small => ⟨rfl, ?_⟩, entries_cleared table seed, rfl,
      .inr fun none => stored (sound.entries_eq_nil.mpr none)⟩
    exact overloaded_eq_false.mpr (.inl (Nat.zero_le _))

end Table

end GradualMap
