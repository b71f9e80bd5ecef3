import GradualMap.Proofs.Raise

/-!
What an abort costs. A write that moves an old chain takes each entry out of its slot before the
scheme is asked where it goes. If the scheme fails there, that one entry is in no slot any more, and
the count still has it; a write that aborts anywhere else has lost nothing.
-/

namespace GradualMap

open GradualMap.Action

variable {K V δ ρ : Type} {scheme : KeyScheme K δ}

namespace KeyScheme

/-- The failures that the scheme may meet a stored key with, asked for its hash or whether it equals
itself. -/
def StallsOn (scheme : KeyScheme K δ) (key : K) (seed : UInt64) (failure : Failure) : Prop :=
  ∃ env, (scheme.rehash key seed env).1 = .error failure ∨
    (scheme.selfEqual key env).1 = .error failure

/-- A comparison fails with a text of the scheme. -/
theorem Balks.recalls {failure : Failure} (balks : scheme.Balks failure) : ¬ failure.Forgets := by
  obtain ⟨a, b, env, run⟩ := balks
  have given_up : Ends (scheme.same a b) env (fun _ _ => True)
      fun failure _ => ¬ failure.Forgets := by
    unfold same
    rw [KeyM.ends_toAction]
    rcases scheme.equal a b env with ⟨text | answer, after⟩
    · exact fun ⟨_, forgets⟩ => by cases forgets
    · trivial
  exact given_up.of_error run

theorem Declines.recalls {key : K} {seed : UInt64} {failure : Failure}
    (declines : scheme.Declines key seed failure) : ¬ failure.Forgets := by
  obtain ⟨env, run⟩ := declines
  have turned : Ends (scheme.hashKey key seed) env (fun _ _ => True)
      fun failure _ => ¬ failure.Forgets := by
    unfold hashKey
    rw [ends_bind, KeyM.ends_toAction]
    rcases scheme.hash key seed env with ⟨text | refusal | hash, after⟩
    · exact fun ⟨_, forgets⟩ => by cases forgets
    · exact fun ⟨_, forgets⟩ => by cases forgets
    · trivial
  exact turned.of_error run

end KeyScheme

theorem Denied.recalls {grants : Nat → Bool} {failure : Failure} (denied : Denied grants failure) :
    ¬ failure.Forgets := by
  obtain ⟨_, rfl, _⟩ := denied
  exact fun ⟨_, forgets⟩ => by cases forgets

/-- A key that cannot be routed is one that the scheme stalls on. -/
theorem Routing.route_stalls (routing : Routing) (top : UInt8) (key : K) (env : KeyEnv δ) :
    Ends (routing.route scheme top key) env (fun _ _ => True)
      fun failure _ => scheme.StallsOn key routing.seed failure := by
  unfold route
  split
  · trivial
  · rw [ends_bind]
    refine ends_run.mono (fun hash between _ => ?_) fun failure _ run => ⟨env, .inl ?_⟩
    · rw [ends_bind]
      refine ends_run.mono (fun self after _ => ?_) fun failure _ run => ⟨between, .inr ?_⟩
      · cases self <;> trivial
      · rw [run]
    · rw [run]

namespace Table

variable {rules : Rules K} {key : K} {hash : UInt64} {table before between after : Table K V}
  {env : Env δ} {failure : Failure}

/-- An entry that the scheme stalled on is in the table no more. The table counts it still. -/
structure Lost (scheme : KeyScheme K δ) (failure : Failure) (before after : Table K V) : Prop where
  taken : ∃ entry, scheme.StallsOn entry.key before.seed failure ∧
    before.entries.Perm (entry :: after.entries)
  count : after.count = before.count
  seed : after.seed = before.seed

/-- What a write that failed has left of a table: all of it, or one entry less than it counts. -/
inductive Torn (scheme : KeyScheme K δ) (failure : Failure) (before after : Table K V) : Prop
  | whole (sound : after.Sound Rules.any) (regrown : Regrown before after)
      (recalls : ¬ failure.Forgets)
  | short (lost : Lost scheme failure before after)
      (miscounted : after.count = after.entries.length + 1)

/-- The table went on as it was to where the entry was lost. -/
theorem Lost.later (lost : Lost scheme failure between after)
    (entries : between.entries.Perm before.entries) (count : between.count = before.count)
    (seed : between.seed = before.seed) : Lost scheme failure before after where
  taken := by
    obtain ⟨entry, stalls, all⟩ := lost.taken
    exact ⟨entry, seed ▸ stalls, entries.symm.trans all⟩
  count := lost.count.trans count
  seed := lost.seed.trans seed

theorem Lost.after_steady (lost : Lost scheme failure between after)
    (steady : Steady before between) : Lost scheme failure before after :=
  lost.later steady.entries steady.count steady.seed

theorem Torn.later (torn : Torn scheme failure between after) (regrown : Regrown before between) :
    Torn scheme failure before after := by
  cases torn with
  | whole sound regrown' recalls => exact .whole sound (regrown.trans regrown') recalls
  | short lost miscounted =>
    exact .short (lost.later regrown.entries regrown.count regrown.seed) miscounted

/-- The count of a sound table was right before an entry was lost. -/
theorem Lost.torn (lost : Lost scheme failure before after) (sound : before.Sound Rules.any) :
    Torn scheme failure before after := by
  obtain ⟨_, _, all⟩ := lost.taken
  exact .short lost (lost.count.trans (sound.count.trans all.length_eq))

/-- An old chain is short of the entry of a slot that is turned over. -/
theorem entries_turn {resize : Resize K V} (growing : table.resize = some resize)
    {old offset : Nat} (bound : old < resize.array.size) {slot new : Slot K V}
    (here : (resize.array.chainAt old).slots[offset]? = some slot) {array : BucketArray K V}
    (size : array.size = resize.array.size)
    (others : ∀ i, i ≠ old → array.chainAt i = resize.array.chainAt i)
    (turned : array.chainAt old = (resize.array.chainAt old).set offset new)
    (none : new.live? = none) :
    table.entries.Perm
      (slot.live?.toList.map (·.2) ++ (table.withFormer resize array).entries) := by
  obtain ⟨rest, before, after⟩ := entries_write_former growing bound size others
  obtain ⟨left, shown, written⟩ := Row.live_set here
  have short := written new
  rw [none, Option.toList_none, List.nil_append] at short
  have chain : (array.chainAt old).entries.Perm (left.map (·.2)) := by
    rw [turned, Chain.entries, Chain.live, Chain.slots_set]
    exact short.map _
  have all : (resize.array.chainAt old).entries.Perm
      (slot.live?.toList.map (·.2) ++ (array.chainAt old).entries) := by
    refine (shown.map (·.2)).trans ?_
    rw [List.map_append]
    exact chain.symm.append_left _
  refine before.trans ((all.append_right rest).trans ?_)
  rw [List.append_assoc]
  exact after.symm.append_left _

/-- The current array has one more entry behind those of a chain. -/
theorem entries_place {index : Nat} (bound : index < table.current.size)
    {items : List (UInt8 × Entry K V)} (packed : (table.current.chainAt index).Packed items)
    {item : UInt8 × Entry K V} {current : BucketArray K V}
    (size : current.size = table.current.size)
    (packed' : (current.chainAt index).Packed (items ++ [item]))
    (others : ∀ i, i ≠ index → current.chainAt i = table.current.chainAt i) :
    (entries { table with current }).Perm (item.2 :: table.entries) := by
  obtain ⟨rest, before, after⟩ := entries_write_current bound size others
  rw [Chain.entries, Chain.live, packed.row.live] at before
  rw [Chain.entries, Chain.live, packed'.row.live, List.map_append, List.append_assoc] at after
  exact after.trans (List.perm_middle.trans (before.symm.cons _))

theorem evacuateSlots_loses {routing : Routing} {exact : Prop} {old : Nat}
    (pos : 0 < routing.oldSize) (rest : List (Slot K V)) :
    ∀ {table : Table K V} {rows : Half → List (UInt8 × Entry K V)} {env : Env δ}
      {resize : Resize K V} {offset : Nat} {filled : Filled},
      Dealing routing exact old rest offset filled rows resize table → routing.seed = table.seed →
      Ends (evacuateSlots scheme routing old rest offset filled) (table, env) (fun _ _ => True)
        (fun failure s => Lost scheme failure table s.1) := by
  induction rest with
  | nil => exact fun _ _ => trivial
  | cons slot rest ih =>
    intro table rows env resize offset filled dealing seed
    have growing := dealing.growing
    have bound := dealing.bound
    obtain ⟨here, _⟩ := slot_of_drop dealing.left
    have skip (bare : slot.entry = none) (dead : slot.live? = none) :
        Ends (do
          setFormer old offset { slot with tag := .evacuatedEmpty }
          evacuateSlots scheme routing old rest (offset + 1) filled) (table, env)
          (fun _ _ => True) (fun failure s => Lost scheme failure table s.1) := by
      have written := BucketArray.chainAt_setSlot bound offset { slot with tag := .evacuatedEmpty }
      have turned := (written old).trans (if_pos rfl)
      have same := entries_turn growing bound here (by simp) (fun i ne => (written i).trans
        (if_neg ne)) turned rfl
      rw [dead] at same
      rw [ends_bind, ends_setFormer growing]
      have tagged : ({ slot with tag := .evacuatedEmpty } : Slot K V).tag.isEvacuated = true := rfl
      refine (ih (dealing.turn tagged bare (by simp) turned) seed).mono (fun _ _ h => h) ?_
      exact fun failure s lost => lost.later same.symm rfl rfl
    rcases dealing.tidy.mem slot (.head _) with ⟨top, entry, _, rfl⟩ | rfl | rfl
    · change Ends (do
        setFormer old offset ⟨.full top, none⟩
        let way ← onKeys (routing.route scheme top entry.key)
        setFormer old offset { tag := way.1.tag }
        place (routing.target old way.1) (filled.count way.1) (.full way.2 entry)
        evacuateSlots scheme routing old rest (offset + 1) (filled.add way.1)) (table, env) _ _
      rw [ends_bind, ends_setFormer growing, ends_bind, ends_onKeys]
      apply ((routing.route_stalls top entry.key env.keys).both Routing.routes_ends).mono
      · rintro ⟨half, byte⟩ keys ⟨-, routes⟩
        have uses : routing.Uses half := routes.uses
        have written := BucketArray.chainAt_modify_setSlot bound offset ⟨.full top, none⟩
          (·.set offset { tag := half.tag })
        have turned := ((written old).trans (if_pos rfl)).trans (Chain.set_set _ _ _)
        have gone := entries_turn growing bound here (by simp)
          (fun i ne => (written i).trans (if_neg ne)) turned (by cases half <;> rfl)
        have dealing' := dealing.turn half.tag_isEvacuated rfl (by simp) turned
        obtain ⟨inside, packed⟩ := dealing'.halves half uses
        rw [ends_bind, ends_setFormer_withFormer, ends_bind, dealing'.counts half]
        refine (place_yields _ inside packed (byte, entry)).ends ?_
        rintro _ ⟨_, env'⟩ ⟨current, overflowCount, rfl, size, packed', others, -⟩
        have back := entries_place inside packed size packed' others
        refine (ih (dealing'.place pos size packed' others overflowCount) seed).mono
          (fun _ _ h => h) fun failure s lost => lost.later ?_ rfl rfl
        exact back.trans gone.symm
      · rintro failure keys ⟨stalls, -⟩
        -- The key is asked about when the entry is out of its slot already.
        have written := BucketArray.chainAt_setSlot bound offset ⟨.full top, none⟩
        have gone := entries_turn growing bound here (by simp)
          (fun i ne => (written i).trans (if_neg ne)) ((written old).trans (if_pos rfl)) rfl
        exact ⟨⟨entry, seed ▸ stalls, gone⟩, rfl, rfl⟩
    · exact skip rfl rfl
    · exact skip rfl rfl

theorem advanceCursor_ends (s : Table K V × Env δ) :
    Yields advanceCursor s fun _ _ => True := by
  unfold advanceCursor Yields
  rw [ends_bind, ends_read]
  split
  · trivial
  · simp only
    split <;> trivial

section

variable (sound : table.Sound Rules.any)
include sound

theorem evacuate_loses {resize : Resize K V} (growing : table.resize = some resize) {old : Nat}
    (bound : old < resize.array.size) (env : Env δ) :
    Ends (evacuate scheme old) (table, env) (fun _ _ => True)
      fun failure s => Lost scheme failure table s.1 := by
  have onward (s : Table K V × Env δ) :
      Ends (if old = resize.cursor then advanceCursor else pure ()) s (fun _ _ => True)
        fun failure s => Lost scheme failure table s.1 := by
    split
    · exact (advanceCursor_ends s).ends fun _ _ h => h
    · trivial
  unfold evacuate
  simp only [ends_bind, ends_read, growing]
  rw [ends_check_ok (BucketArray.fetch_eq bound)]
  split
  · exact onward _
  · rename_i waits
    have dealing := sound.dealing growing bound (Bool.eq_false_iff.mpr waits)
    rw [ends_bind]
    exact (evacuateSlots_loses (Nat.zero_lt_of_lt bound) _ dealing rfl).mono
      (fun _ s _ => onward s) fun _ _ lost => lost

theorem evacuateNext_loses (env : Env δ) :
    Ends (evacuateNext scheme) (table, env) (fun _ _ => True)
      fun failure s => Lost scheme failure table s.1 := by
  unfold evacuateNext
  rw [ends_bind, ends_read]
  cases growing : table.resize with
  | none => trivial
  | some resize => exact evacuate_loses sound growing (sound.resizing resize growing).cursor_lt env

theorem growWork_loses (index : Nat) (env : Env δ) :
    Ends (growWork scheme index) (table, env) (fun _ _ => True)
      fun failure s => Lost scheme failure table s.1 := by
  unfold growWork
  rw [ends_bind, ends_read]
  cases growing : table.resize with
  | none => trivial
  | some resize =>
    have pos : 0 < resize.array.size :=
      Nat.zero_lt_of_lt (sound.resizing resize growing).cursor_lt
    have bound := Nat.mod_lt index pos
    simp only
    rw [ends_bind, ends_check_ok (BucketArray.wrap_eq pos), ends_bind]
    apply ((evacuate_ends (Rules.any_heldBy scheme) sound growing bound env).both
      (evacuate_loses sound growing bound env)).mono ?_ fun _ _ => And.right
    rintro _ ⟨between, env'⟩ ⟨⟨shifts, -⟩, -⟩
    obtain ⟨sound', steady⟩ := shifts.sound (Rules.any_heldBy scheme) sound
    exact (evacuateNext_loses sound' env').mono (fun _ _ h => h)
      fun _ _ lost => lost.after_steady steady

end

theorem finishGrowthWithin_loses (steps : Nat) : ∀ {table : Table K V} {env : Env δ},
    table.Sound Rules.any → Ends (finishGrowthWithin scheme steps) (table, env) (fun _ _ => True)
      fun failure s => Lost scheme failure table s.1 := by
  induction steps with
  | zero => exact fun _ => trivial
  | succ steps ih =>
    intro table env sound
    unfold finishGrowthWithin
    rw [ends_bind, ends_read]
    split
    · rw [ends_bind]
      apply ((evacuateNext_ends (Rules.any_heldBy scheme) sound env).both
        (evacuateNext_loses sound env)).mono ?_ fun _ _ => And.right
      rintro _ ⟨between, env'⟩ ⟨⟨shifts, -⟩, -⟩
      obtain ⟨sound', steady⟩ := shifts.sound (Rules.any_heldBy scheme) sound
      exact (ih sound').mono (fun _ _ h => h) fun _ _ lost => lost.after_steady steady
    · trivial

theorem finishGrowth_loses (sound : table.Sound Rules.any) (env : Env δ) :
    Ends (finishGrowth scheme) (table, env) (fun _ _ => True)
      fun failure s => Lost scheme failure table s.1 := by
  unfold finishGrowth
  rw [ends_bind, ends_read]
  cases table.resize with
  | none => trivial
  | some resize => exact finishGrowthWithin_loses _ sound

/-- Every round of a claim moves entries first, and does not change them after that. -/
theorem claimWithin_tears (rounds : Nat) : ∀ {table : Table K V} {env : Env δ},
    table.Sound Rules.any → table.current.size ≠ 0 →
    Ends (claimWithin scheme key hash rounds) (table, env) (fun _ _ => True)
      fun failure s => Torn scheme failure table s.1 := by
  induction rounds with
  | zero =>
    intro table env sound _
    exact .whole sound (.refl table) fun ⟨_, forgets⟩ => by cases forgets
  | succ rounds ih =>
    intro table env sound allocated
    have onward (s : Table K V × Env δ)
        (ready : Readied scheme (bucketIndex hash table.exponent) (table, env) s) :
        s.1.Sound Rules.any ∧ Steady table s.1 :=
      ready.worked.shifts.sound (Rules.any_heldBy scheme) sound
    apply round_ends (Rules.any_heldBy scheme) sound allocated
    · exact (growWork_loses sound _ env).mono (fun _ _ h => h) fun _ _ lost => lost.torn sound
    · intro failure s ready balks
      obtain ⟨sound', steady⟩ := onward s ready
      exact .whole sound' steady.regrown balks.recalls
    · exact fun _ _ _ _ _ _ => trivial
    · intro s ready must _
      obtain ⟨sound', steady⟩ := onward s ready
      have allocated' : s.1.current.size ≠ 0 := steady.size ▸ allocated
      have idle := idle_of_mustGrow must
      rw [ends_bind]
      apply (startGrowth_ends sound' allocated' s.2).mono
      · rintro _ ⟨_, env'⟩ ⟨rfl, small, -⟩
        have started := (started_spec sound' idle).regrown
        exact (ih (sound'.started idle (sound'.size_eq allocated') small)
          (allocated_started s.1)).mono (fun _ _ h => h)
          fun _ _ torn => torn.later (steady.regrown.trans started)
      · rintro failure _ ⟨rfl, denied⟩
        exact .whole sound' steady.regrown denied.recalls
    · exact fun _ _ _ _ _ _ _ => trivial

theorem claim_tears (sound : table.Sound Rules.any) :
    Ends (claim scheme key hash) (table, env) (fun _ _ => True)
      fun failure s => Torn scheme failure table s.1 := by
  unfold claim
  rw [ends_bind]
  apply (reserve_ends sound env).mono
  · rintro _ ⟨_, env'⟩ ⟨-, ⟨allocated, rfl⟩ | ⟨bare, rfl⟩⟩
    · exact claimWithin_tears _ sound allocated
    · obtain ⟨sound', entries⟩ := sound.reserved bare
      exact (claimWithin_tears _ sound' (allocated_reserved table)).mono (fun _ _ h => h)
        fun _ _ torn => torn.later ⟨.of_eq entries, rfl, rfl, Nat.le_refl _⟩
  · rintro failure _ ⟨rfl, _, denied⟩
    exact .whole sound (.refl table) denied.recalls

theorem delete_tears (sound : table.Sound Rules.any) :
    Ends (delete scheme key hash) (table, env) (fun _ _ => True)
      fun failure s => Torn scheme failure table s.1 := by
  by_cases empty : table.count = 0
  · rw [ends_delete_of_empty empty]
    trivial
  apply removal_ends (Rules.any_heldBy scheme) sound empty
  · exact (growWork_loses sound _ env).mono (fun _ _ h => h) fun _ _ lost => lost.torn sound
  · intro failure s ready balks
    obtain ⟨sound', steady⟩ := ready.worked.shifts.sound (Rules.any_heldBy scheme) sound
    exact .whole sound' steady.regrown balks.recalls
  · exact fun _ _ _ => trivial
  · exact fun _ _ _ _ _ _ _ _ => trivial

/-- A closure that does not raise leaves the resize as the only thing to fail. -/
theorem retain_loses (sound : table.Sound Rules.any) (f : K → V → StateM ρ (V × Bool)) (own : ρ) :
    Ends (retain scheme (calmly f)) ((table, env), own) (fun _ _ => True)
      fun failure s => Lost scheme failure table s.1.1 := by
  rw [retain_eq, ends_bind, ends_first, ends_read]
  split
  · trivial
  · rw [ends_bind, ends_first]
    apply ((finishGrowth_ends (Rules.any_heldBy scheme) sound env).both
      (finishGrowth_loses sound env)).mono ?_ fun _ _ => And.right
    rintro _ ⟨between, env'⟩ ⟨⟨shifts, idle⟩, -⟩
    obtain ⟨sound', -⟩ := shifts.sound (Rules.any_heldBy scheme) sound
    refine (retainSettled_ends (calmly f) sound' idle env' own).mono (fun _ _ _ => trivial) ?_
    rintro failure s ⟨left, text, run, -⟩
    exact absurd run (Keeps.not_raised_calmly f)

end Table

namespace Map

/-- What a call that failed has left of a map. -/
structure Torn (scheme : KeyScheme K δ) (failure : Failure) (before after : Map K V) : Prop where
  table : Table.Torn scheme failure before.table after.table
  id : after.id = before.id
  free : after.latch.held = false

variable {key : K} {map : Map K V} {env : Env δ} {own : ρ}

section

variable (sound : map.table.Sound Rules.any) (free : map.latch.held = false)
include sound free

theorem torn_of_declined {seed : UInt64} {failure : Failure}
    (declines : scheme.Declines key seed failure) : Torn scheme failure map map :=
  ⟨.whole sound (.refl _) declines.recalls, rfl, free⟩

theorem insert?_tears (value : V) :
    Ends (insert? scheme key value) (map, env) (fun _ _ => True)
      fun failure s => Torn scheme failure map s.1 := by
  unfold insert?
  rw [ends_bind, ends_read, ends_bind, ends_onKeys]
  refine KeyScheme.hashKey_ends.mono ?_ fun _ _ declines => torn_of_declined sound free declines
  intro hash keys hashes
  rw [ends_writing free, ends_onTable, ends_bind]
  refine ((Table.claim_offers sound).both (Table.claim_tears sound)).mono ?_
    fun _ _ torn => ⟨torn.2, rfl, rfl⟩
  rintro (pos | ⟨index, offset⟩) s ⟨offered, -⟩
  · obtain ⟨_, _, holds, _⟩ := offered.overwritten hashes fun _ => value
    simp only
    rw [ends_bind]
    exact (Table.ends_updateEntry holds _).mpr trivial
  · simp only
    rw [ends_bind, Table.ends_fill]
    trivial

/-- With a default that does not raise. -/
theorem getOrInsert?_tears (default : StateM ρ V) (f : V → V) :
    Ends (getOrInsert? scheme key (.ok <$> default) f) ((map, env), own) (fun _ _ => True)
      fun failure s => Torn scheme failure map s.1.1 := by
  unfold getOrInsert?
  rw [ends_bind, ends_first, ends_read, ends_bind, ends_first, ends_onKeys]
  refine KeyScheme.hashKey_ends.mono ?_ fun _ _ declines => torn_of_declined sound free declines
  intro hash keys hashes
  rw [ends_writingWith free, ends_bind, ends_first, ends_onTable]
  refine ((Table.claim_offers sound).both (Table.claim_tears sound)).mono ?_
    fun _ _ torn => ⟨torn.2, rfl, rfl⟩
  rintro (pos | ⟨index, offset⟩) s ⟨offered, -⟩
  · obtain ⟨_, _, holds, _⟩ := offered.overwritten hashes f
    simp only
    rw [ends_bind, ends_first, ends_onTable]
    exact (Table.ends_updateEntry holds _).mpr trivial
  · simp only
    rw [ends_bind, ends_second, ends_lift]
    exact trivial

theorem removePair?_tears :
    Ends (removePair? scheme key) (map, env) (fun _ _ => True)
      fun failure s => Torn scheme failure map s.1 := by
  unfold removePair?
  rw [ends_bind, ends_read]
  split
  · rw [ends_bind, ends_onKeys]
    unfold Table.probeEmpty
    split
    · rw [ends_discard]
      exact KeyScheme.hashKey_ends.mono (fun _ _ _ => trivial)
        fun _ _ declines => torn_of_declined sound free declines
    · trivial
  · rw [ends_bind, ends_read, ends_bind, ends_onKeys]
    refine KeyScheme.hashKey_ends.mono ?_ fun _ _ declines => torn_of_declined sound free declines
    intro hash keys _
    rw [ends_writing free, ends_onTable]
    exact (Table.delete_tears sound).mono (fun _ _ h => h) fun _ _ torn => ⟨torn, rfl, rfl⟩

theorem retain_tears (f : K → V → StateM ρ (V × Bool)) :
    Ends (retain scheme (calmly f)) ((map, env), own) (fun _ _ => True)
      fun failure s => Torn scheme failure map s.1.1 := by
  rw [ends_retain free]
  exact (Table.retain_loses sound f own).mono (fun _ _ _ => trivial)
    fun _ _ lost => ⟨lost.torn sound, rfl, rfl⟩

end

end Map

/-- A walk that writes ends the resize in flight before it starts, and then nothing fails. -/
theorem Sweep.ofMap_tears {map : Map K V} {env : Env δ} (sound : map.table.Sound Rules.any)
    (free : map.latch.held = false) :
    Ends (ofMap scheme) (map, env) (fun _ _ => True)
      fun failure s => Map.Torn scheme failure map s.1 := by
  exact ofMap_ends free ((Table.finishGrowth_loses sound env).mono (fun _ _ _ _ _ => trivial)
    fun _ _ lost => ⟨lost.torn sound, rfl, rfl⟩)

namespace Call

/-- A call that may move entries, about one key or about all. -/
def moves : Call K V ρ → Bool
  | .insert .. | .getOrInsert .. | .remove _ | .removePair _ | .retain _ | .sweep _ => true
  | _ => false

theorem attempt_tears {map : Map K V} {env : Env δ} {own : ρ} (sound : map.table.Sound Rules.any)
    (free : map.latch.held = false) {call : Call K V ρ} (moves : call.moves = true) :
    Ends (call.attempt scheme) ((map, env), own) (fun _ _ => True)
      fun failure s => Map.Torn scheme failure map s.1.1 := by
  cases call with
  | insert key value => exact ends_map.mpr (ends_first.mpr (Map.insert?_tears sound free value))
  | getOrInsert key default f => exact ends_map.mpr (Map.getOrInsert?_tears sound free default f)
  | remove key =>
    exact ends_map.mpr (ends_first.mpr (ends_map.mpr (Map.removePair?_tears sound free)))
  | removePair key => exact ends_map.mpr (ends_first.mpr (Map.removePair?_tears sound free))
  | retain f => exact ends_map.mpr (Map.retain_tears sound free f)
  | sweep writes =>
    unfold attempt
    rw [ends_first, ends_bind]
    apply ((Sweep.ofMap_ends_of_held (Rules.any_heldBy scheme) sound free env).both
      (Sweep.ofMap_tears sound free)).mono ?_ fun _ _ => And.right
    rintro sweep ⟨between, env'⟩ ⟨⟨_, _, _, order, _, under⟩, -⟩
    rw [ends_bind]
    exact (Sweep.through_yields writes under).ends fun _ _ _ => trivial
  | _ => cases moves

end Call

/-- Whatever the scheme does, a write that aborts costs one entry at most: one whose key the scheme
failed on while it was moved. Nothing is lost otherwise, and if a stored key was refused, it is that
key's entry. The count is what it was. -/
theorem abort_loses_one_entry_at_most {map after : Map K V} (reachable : Reachable scheme map)
    {call : Call K V ρ} (moves : call.moves = true) {env env' : Env δ} {own own' : ρ} {cause : Abort}
    (run : call.attempt scheme ((map, env), own) =
      (.error (.abort cause), ((after, env'), own'))) :
    map.Torn scheme (.abort cause) after := by
  obtain ⟨sound, free⟩ := reachable.intact
  exact (call.attempt_tears sound free moves).failure run

/-- Amid a doubling a key with bit 2 set is refused while the chain of 1 is evacuated: 5 is the
first. Its entry is gone, and what comes after it in its chain is not found. -/
theorem abort_loses_entry : ∃ (map after : Map UInt64 Nat) (env env' : Env Key.MaskedState),
    Reachable (Key.Masked.scheme {}) map ∧ map.table.resize.isSome = true ∧
    Call.attempt (Key.Masked.scheme {}) (.insert 1 100) ((map, env), ()) =
      (.error (.abort (.storedKeyRefused ⟨"func"⟩)), ((after, env'), ())) ∧
    ⟨5, 5⟩ ∈ map.table.entries ∧ ⟨5, 5⟩ ∉ after.table.entries ∧
    after.table.count = 27 ∧ after.table.entries.length = 26 ∧ ⟨9, 9⟩ ∈ after.table.entries ∧
    (after.get? (Key.Masked.scheme {}) 5 ⟨{}, {}⟩).1 = .ok none ∧
    (after.get? (Key.Masked.scheme {}) 9 ⟨{}, {}⟩).1 = .ok none := by
  have made : Reachable (V := Nat) (Key.Masked.scheme {}) _ := .made .empty (.lenient {}) rfl
  let refusing : Env Key.MaskedState := { Env.lenient {} with keys := ⟨{}, { refuse := 4 }⟩ }
  let call : Call UInt64 Nat Unit := .insert 1 100
  obtain ⟨map, grown, growing, aborts, left⟩ : ∃ map : Map UInt64 Nat,
      Reachable (Key.Masked.scheme {}) map ∧ map.table.resize.isSome = true ∧
      (call.attempt (Key.Masked.scheme {}) ((map, refusing), ())).1 =
        .error (.abort (.storedKeyRefused ⟨"func"⟩)) ∧
      let after := (call.attempt (Key.Masked.scheme {}) ((map, refusing), ())).2.1.1
      ⟨5, 5⟩ ∈ map.table.entries ∧ ⟨5, 5⟩ ∉ after.table.entries ∧ after.table.count = 27 ∧
      after.table.entries.length = 26 ∧ ⟨9, 9⟩ ∈ after.table.entries ∧
      (after.get? (Key.Masked.scheme {}) 5 ⟨{}, {}⟩).1 = .ok none ∧
      (after.get? (Key.Masked.scheme {}) 9 ⟨{}, {}⟩).1 = .ok none :=
    ⟨_, made.after (.extend ((List.range 27).map fun n => (n.toUInt64, n))) (.lenient {}) ()
      (by decide +kernel), by decide +kernel⟩
  exact ⟨map, _, refusing, _, grown, growing, Prod.ext aborts rfl, left⟩

theorem abort_loses_one_entry_at_most_amid_doubling : ∃ map after : Map UInt64 Nat,
    map.table.resize.isSome = true ∧ after.table.entries.length = 26 ∧
    map.Torn (Key.Masked.scheme {}) (.abort (.storedKeyRefused ⟨"func"⟩)) after := by
  have made : Reachable (V := Nat) (Key.Masked.scheme {}) _ := .made .empty (.lenient {}) rfl
  let refusing : Env Key.MaskedState := { Env.lenient {} with keys := ⟨{}, { refuse := 4 }⟩ }
  let call : Call UInt64 Nat Unit := .remove 3
  obtain ⟨map, grown, growing, aborts, left⟩ : ∃ map : Map UInt64 Nat,
      Reachable (Key.Masked.scheme {}) map ∧ map.table.resize.isSome = true ∧
      (call.attempt (Key.Masked.scheme {}) ((map, refusing), ())).1 =
        .error (.abort (.storedKeyRefused ⟨"func"⟩)) ∧
      (call.attempt (Key.Masked.scheme {}) ((map, refusing), ())).2.1.1.table.entries.length =
        26 :=
    ⟨_, made.after (.extend ((List.range 27).map fun n => (n.toUInt64, n))) (.lenient {}) ()
      (by decide +kernel), by decide +kernel⟩
  exact ⟨map, _, growing, left, abort_loses_one_entry_at_most grown rfl (Prod.ext aborts rfl)⟩

end GradualMap
