import GradualMap.Proofs.Invariant
import GradualMap.Table.Find

/-!
Where the entries of a chain are, and what becomes of a table when one chain of it is written.
-/

namespace GradualMap

/-- A live slot may be given another entry, if its place admits the key. -/
theorem Chain.Sound.set_entry {K V : Type} {rules : Rules K} {seed : UInt64}
    {size index offset : Nat} {chain : Chain K V} {top : UInt8} {entry : Entry K V}
    (sound : chain.Sound rules seed size index) (new : Entry K V)
    (slot : chain.slots[offset]? = some (.full top entry))
    (admits : rules.admits seed size index top entry.key →
      rules.admits seed size index top new.key) :
    (chain.set offset (.full top new)).Sound rules seed size index ∧
      ∃ rest, chain.entries.Perm (entry :: rest) ∧
        (chain.set offset (.full top new)).entries.Perm (new :: rest) := by
  obtain ⟨rest, before, after⟩ := Row.live_set slot
  have shown := after (.full top new)
  rw [Slot.live?_full, Option.toList_some, List.singleton_append] at before shown
  have here : (top, entry) ∈ chain.live := before.mem_iff.mpr (.head _)
  refine ⟨⟨?_, fun item mem => ?_⟩, rest.map (·.2), ?_, ?_⟩
  · obtain ⟨earlier, later, _, row, replaced⟩ := Row.eq_append_of_getElem? slot
    have full (entry : Entry K V) : (Slot.full top entry).IsFull :=
      ⟨top, entry, sound.tidy.minTopHash_le here, rfl⟩
    rw [Chain.slots_set, replaced]
    exact (row ▸ sound.tidy).exchange (full entry) (full new)
  · rcases List.mem_cons.mp (shown.mem_iff.mp mem) with rfl | mem
    · exact admits (sound.placed _ here)
    · exact sound.placed item (before.mem_iff.mpr (.tail _ mem))
  · exact before.map _
  · exact shown.map _

/-- The first free slot of a chain takes an entry that its place admits. -/
theorem Chain.Sound.fill {K V : Type} {rules : Rules K} {seed : UInt64}
    {size index offset : Nat} {chain : Chain K V} {hash : UInt64} {entry : Entry K V}
    (sound : chain.Sound rules seed size index)
    (free : chain.slots.findIdx? (·.tag.isEmpty) = some offset)
    (admits : rules.admits seed size index (topHash hash) entry.key) :
    (chain.set offset (.full (topHash hash) entry)).Sound rules seed size index ∧
      (chain.set offset (.full (topHash hash) entry)).entries.Perm (entry :: chain.entries) := by
  obtain ⟨bound, empty, _⟩ := List.findIdx?_eq_some_iff_getElem.mp free
  obtain ⟨rest, before, after⟩ := Row.live_set (List.getElem?_eq_getElem bound)
  have shown := after (.full (topHash hash) entry)
  rw [Slot.live?_eq_none_of_isEmpty empty, Option.toList_none, List.nil_append] at before
  rw [Slot.live?_full, Option.toList_some, List.singleton_append] at shown
  have more := shown.trans (before.symm.cons _)
  refine ⟨⟨?_, fun item mem => ?_⟩, more.map _⟩
  · exact sound.tidy.fill free ⟨_, entry, minTopHash_le_topHash hash, rfl⟩
  · rcases List.mem_cons.mp (more.mem_iff.mp mem) with rfl | mem
    · exact admits
    · exact sound.placed item mem

namespace Table

open GradualMap.Action

variable {K V δ : Type} {rules : Rules K} {table : Table K V} {index : Nat}

/-- The chain that has the entries of current chain `index`. -/
def home (table : Table K V) (index : Nat) : Era × Nat :=
  match table.resize with
  | none => (.current, index)
  | some resize =>
    if (resize.array.chainAt (index % resize.array.size)).isEvacuated then (.current, index)
    else (.former, index % resize.array.size)

def chainAt (table : Table K V) : Era × Nat → Chain K V
  | (.current, i) => table.current.chainAt i
  | (.former, i) => (table.resize.map (·.array.chainAt i)).getD .empty

/-- The table with one slot written. -/
def put (table : Table K V) (pos : Position) (slot : Slot K V) : Table K V :=
  match pos.era with
  | .current => { table with current := table.current.setSlot pos.index pos.offset slot }
  | .former =>
    { table with
      resize := table.resize.map fun resize =>
        { resize with array := resize.array.setSlot pos.index pos.offset slot } }

section

variable (table) (pos : Position) (slot : Slot K V)

@[simp] theorem put_count : (table.put pos slot).count = table.count := by
  unfold put
  split <;> rfl

@[simp] theorem put_exponent : (table.put pos slot).exponent = table.exponent := by
  unfold put
  split <;> rfl

@[simp] theorem put_seed : (table.put pos slot).seed = table.seed := by
  unfold put
  split <;> rfl

@[simp] theorem put_overflowCount :
    (table.put pos slot).overflowCount = table.overflowCount := by
  unfold put
  split <;> rfl

@[simp] theorem size_put_current : (table.put pos slot).current.size = table.current.size := by
  unfold put
  split <;> simp

@[simp] theorem linked_put_current :
    (table.put pos slot).current.linked = table.current.linked := by
  unfold put
  split <;> rfl

@[simp] theorem put_resize_eq_none :
    (table.put pos slot).resize = none ↔ table.resize = none := by
  unfold put
  split <;> simp

end

namespace Sound

theorem source_eq (sound : table.Sound rules) (index : Nat) :
    table.source index = .ok (table.home index) := by
  unfold source home
  cases growing : table.resize with
  | none => rfl
  | some resize =>
    have pos : 0 < resize.array.size :=
      Nat.zero_lt_of_lt (sound.resizing resize growing).cursor_lt
    simp only [BucketArray.wrap_eq pos]
    change (resize.array.isEvacuated (index % resize.array.size) >>= fun evacuated =>
      if evacuated = true then pure (Era.current, index)
      else pure (Era.former, index % resize.array.size)) = _
    rw [BucketArray.isEvacuated_eq (Nat.mod_lt index pos)]
    cases (resize.array.chainAt (index % resize.array.size)).isEvacuated <;> rfl

/-- The two ways a chain can be read: in its place, or in the old chain that waits. -/
theorem home_cases (sound : table.Sound rules) (index : Nat) :
    table.home index = (.current, index) ∧ table.Settled index ∨
    ∃ resize, table.resize = some resize ∧
      table.home index = (.former, index % resize.array.size) ∧
      resize.Waiting rules table.seed table.current (index % resize.array.size) := by
  unfold home Settled
  cases growing : table.resize with
  | none => exact .inl ⟨rfl, by simp⟩
  | some resize =>
    have inUse := sound.resizing resize growing
    have bound := Nat.mod_lt index (Nat.zero_lt_of_lt inUse.cursor_lt)
    by_cases evacuated : (resize.array.chainAt (index % resize.array.size)).isEvacuated = true
    · refine .inl ⟨by simp [evacuated], ?_⟩
      rintro _ ⟨⟩
      exact (sound.isEvacuated_iff growing bound).mp evacuated
    · refine .inr ⟨resize, rfl, by simp [evacuated], ?_⟩
      exact sound.waiting growing bound (Bool.eq_false_iff.mpr evacuated)

theorem chain_home (sound : table.Sound rules) (bound : index < table.current.size) :
    table.chain (table.home index).1 (table.home index).2 =
      .ok (table.chainAt (table.home index)) := by
  rcases sound.home_cases index with ⟨home, _⟩ | ⟨resize, growing, home, _⟩
  · rw [home]
    exact BucketArray.fetch_eq bound
  · have inside := Nat.mod_lt index
      (Nat.zero_lt_of_lt (sound.resizing resize growing).cursor_lt)
    rw [home]
    simp only [chain, array, chainAt, growing, Option.map_some, Option.getD_some]
    exact BucketArray.fetch_eq inside

theorem home_of_settled (sound : table.Sound rules) (settled : table.Settled index) :
    table.home index = (.current, index) := by
  rcases sound.home_cases index with ⟨home, _⟩ | ⟨resize, growing, _, waiting⟩
  · exact home
  · exact absurd (settled resize growing) waiting.not_vacated

theorem tidy_home (sound : table.Sound rules) (index : Nat) :
    Row.Tidy rules.exact (table.chainAt (table.home index)).slots := by
  rcases sound.home_cases index with ⟨home, _⟩ | ⟨resize, growing, home, waiting⟩
  · rw [home, chainAt]
    by_cases bound : index < table.current.size
    · exact (sound.chains index bound).tidy
    · rw [BucketArray.chainAt_of_size_le (Nat.le_of_not_lt bound)]
      exact .spare bucketSize
  · rw [home, chainAt, growing]
    exact waiting.sound.tidy

/-- A chain may be written once no old chain is going to be moved into it. -/
theorem write_current (sound : table.Sound rules) (settled : table.Settled index)
    {array : BucketArray K V} (size : array.size = table.current.size)
    (others : ∀ i, i ≠ index → array.chainAt i = table.current.chainAt i)
    (chain : (array.chainAt index).Sound rules table.seed table.current.size index)
    (count overflowCount : Nat)
    (counted : count = (entries { table with current := array }).length) :
    Sound rules { table with current := array, count, overflowCount } where
  count := counted
  allocated := by
    rw [size]
    exact sound.allocated
  chains i bound := by
    rw [size] at bound ⊢
    by_cases same : i = index
    · exact same ▸ chain
    · rw [others i same]
      exact sound.chains i bound
  resizing resize growing := by
    have inUse := sound.resizing resize growing
    refine ⟨size.trans inUse.size, inUse.cursor_lt, inUse.passed, fun old bound => ?_⟩
    rcases inUse.chains old bound with vacated | waiting
    · exact .inl vacated
    · by_cases low : old = index
      · left
        have vacated := settled resize growing
        rwa [← low, Nat.mod_eq_of_lt bound] at vacated
      · by_cases high : old + resize.array.size = index
        · left
          have vacated := settled resize growing
          rwa [← high, Nat.add_mod_right, Nat.mod_eq_of_lt bound] at vacated
        · exact .inr ⟨waiting.sound, (others _ low).trans waiting.low,
            (others _ high).trans waiting.high⟩

theorem write_former (sound : table.Sound rules) {resize : Resize K V}
    (growing : table.resize = some resize) {old : Nat} {array : BucketArray K V}
    (size : array.size = resize.array.size)
    (others : ∀ i, i ≠ old → array.chainAt i = resize.array.chainAt i)
    (waits : ¬ resize.Vacated old)
    (chain : (array.chainAt old).Sound rules table.seed resize.array.size old)
    (count : Nat)
    (counted : count =
      (entries { table with resize := some { resize with array } }).length) :
    Sound rules { table with resize := some { resize with array }, count } where
  count := counted
  allocated := by
    rcases sound.allocated with ⟨_, _, none⟩ | allocated
    · rw [growing] at none
      cases none
    · exact .inr allocated
  chains := sound.chains
  resizing := by
    have inUse := sound.resizing resize growing
    have still (i : Nat) (vacated : resize.Vacated i) : Row.Vacated (array.chainAt i).slots := by
      rw [others i fun same => waits (same ▸ vacated)]
      exact vacated
    rintro _ ⟨⟩
    refine ⟨?_, ?_, fun i below => still i (inUse.passed i below), fun i inside => ?_⟩
    · simpa [size] using inUse.size
    · simpa [size] using inUse.cursor_lt
    · simp only [size] at inside
      rcases inUse.chains i inside with vacated | waiting
      · exact .inl (still i vacated)
      · refine .inr ⟨?_, waiting.low, by simpa [size] using waiting.high⟩
        by_cases same : i = old
        · simpa [same, size] using chain
        · simpa [others i same, size] using waiting.sound

theorem placed_home (sound : table.Sound rules) {item : UInt8 × Entry K V}
    (mem : item ∈ (table.chainAt (table.home index)).live) :
    ∃ size i, rules.admits table.seed size i item.1 item.2.key := by
  rcases sound.home_cases index with ⟨home, _⟩ | ⟨resize, growing, home, waiting⟩
  · rw [home, chainAt] at mem
    by_cases bound : index < table.current.size
    · exact ⟨_, _, (sound.chains index bound).placed item mem⟩
    · rw [BucketArray.chainAt_of_size_le (Nat.le_of_not_lt bound), Chain.live_empty] at mem
      cases mem
  · rw [home, chainAt, growing] at mem
    exact ⟨_, _, waiting.sound.placed item mem⟩

end Sound

/-- The entries of one chain apart from all others of the table. -/
theorem entries_write_current (bound : index < table.current.size) {array : BucketArray K V}
    (size : array.size = table.current.size)
    (others : ∀ i, i ≠ index → array.chainAt i = table.current.chainAt i) :
    ∃ rest, table.entries.Perm ((table.current.chainAt index).entries ++ rest) ∧
      (entries { table with current := array }).Perm ((array.chainAt index).entries ++ rest) := by
  obtain ⟨rest, before, after⟩ := BucketArray.entries_update bound size others
  refine ⟨rest ++ table.former, ?_, ?_⟩
  · rw [← List.append_assoc]
    exact before.append_right _
  · rw [← List.append_assoc]
    exact after.append_right _

theorem entries_write_former {resize : Resize K V} (growing : table.resize = some resize)
    {old : Nat} (bound : old < resize.array.size) {array : BucketArray K V}
    (size : array.size = resize.array.size)
    (others : ∀ i, i ≠ old → array.chainAt i = resize.array.chainAt i) :
    ∃ rest, table.entries.Perm ((resize.array.chainAt old).entries ++ rest) ∧
      (entries { table with resize := some { resize with array } }).Perm
        ((array.chainAt old).entries ++ rest) := by
  obtain ⟨rest, before, after⟩ := BucketArray.entries_update bound size others
  refine ⟨table.current.entries ++ rest, ?_, ?_⟩
  · rw [entries, former, growing]
    exact (before.append_left _).trans (List.perm_append_comm_assoc _ _ _)
  · exact (after.append_left _).trans (List.perm_append_comm_assoc _ _ _)

/-- The slot at a position is live. -/
def Holds (table : Table K V) (pos : Position) (top : UInt8) (entry : Entry K V) : Prop :=
  table.slotAt pos = .ok (.full top entry)

variable {pos : Position} {top : UInt8} {entry : Entry K V}

theorem Holds.entryAt (holds : table.Holds pos top entry) : table.entryAt pos = .ok entry := by
  unfold Table.entryAt
  rw [show table.slotAt pos = .ok (.full top entry) from holds]
  rfl

theorem slotAt_eq_ok {slot : Slot K V} :
    table.slotAt pos = .ok slot ↔
      ∃ chain, table.chain pos.era pos.index = .ok chain ∧ chain.slots[pos.offset]? = some slot := by
  unfold slotAt
  cases table.chain pos.era pos.index with
  | error cause => simp [bind, Except.bind]
  | ok chain =>
    cases found : chain.slots[pos.offset]? with
    | none => simp [bind, Except.bind, found]
    | some other => simp [bind, Except.bind, pure, Except.pure, found]

theorem fetch_eq_ok {array : BucketArray K V} {chain : Chain K V} :
    array.fetch index = .ok chain ↔ index < array.size ∧ array.chainAt index = chain := by
  by_cases bound : index < array.size
  · simp [BucketArray.fetch_eq bound, bound]
  · simp [BucketArray.fetch, bound,
      Array.getElem?_eq_none (show array.chains.size ≤ index from Nat.le_of_not_lt bound)]

theorem holds_current {index offset : Nat} :
    table.Holds ⟨.current, index, offset⟩ top entry ↔ index < table.current.size ∧
      (table.current.chainAt index).slots[offset]? = some (.full top entry) := by
  unfold Holds
  rw [slotAt_eq_ok]
  change (∃ chain, table.current.fetch index = .ok chain ∧ _) ↔ _
  simp only [fetch_eq_ok]
  constructor
  · rintro ⟨_, ⟨bound, rfl⟩, slot⟩
    exact ⟨bound, slot⟩
  · rintro ⟨bound, slot⟩
    exact ⟨_, ⟨bound, rfl⟩, slot⟩

theorem holds_former {index offset : Nat} :
    table.Holds ⟨.former, index, offset⟩ top entry ↔ ∃ resize, table.resize = some resize ∧
      index < resize.array.size ∧
      (resize.array.chainAt index).slots[offset]? = some (.full top entry) := by
  unfold Holds
  rw [slotAt_eq_ok]
  unfold chain array
  cases table.resize with
  | none => simp [bind, Except.bind]
  | some resize =>
    change (∃ chain, resize.array.fetch index = .ok chain ∧ _) ↔ _
    simp only [fetch_eq_ok, Option.some.injEq, exists_eq_left']
    constructor
    · rintro ⟨_, ⟨bound, rfl⟩, slot⟩
      exact ⟨bound, slot⟩
    · rintro ⟨bound, slot⟩
      exact ⟨_, ⟨bound, rfl⟩, slot⟩

/-- A slot that has an entry is live. -/
theorem Sound.holds_of_entry (sound : table.Sound rules) {slot : Slot K V}
    (read : table.slotAt pos = .ok slot) (has : slot.entry = some entry) :
    ∃ top, table.Holds pos top entry := by
  have full {row : List (Slot K V)} (tidy : Row.Tidy rules.exact row) (mem : slot ∈ row) :
      ∃ top, slot = .full top entry := by
    rcases tidy.mem slot mem with ⟨top, other, _, rfl⟩ | rfl | rfl
    · exact ⟨top, congrArg (Slot.full top) (Option.some.inj has)⟩
    · cases has
    · cases has
  obtain ⟨chain, fetched, slotAt⟩ := slotAt_eq_ok.mp read
  have mem : slot ∈ chain.slots := List.mem_of_getElem? slotAt
  have live : ∃ top, slot = .full top entry := by
    obtain ⟨_ | _, index, offset⟩ := pos
    · obtain ⟨bound, rfl⟩ := fetch_eq_ok.mp fetched
      exact full (sound.chains index bound).tidy mem
    · cases growing : table.resize with
      | none => simp [Table.chain, array, growing, bind, Except.bind] at fetched
      | some resize =>
        simp only [Table.chain, array, growing] at fetched
        obtain ⟨bound, rfl⟩ := fetch_eq_ok.mp fetched
        rcases (sound.resizing resize growing).chains index bound with vacated | waiting
        · rw [(vacated slot mem).2] at has
          cases has
        · exact full waiting.sound.tidy mem
  obtain ⟨top, rfl⟩ := live
  exact ⟨top, read⟩

/-- A live slot of the current array is in a chain that nothing will be moved into. -/
theorem Sound.settled_of_full (sound : table.Sound rules) (bound : index < table.current.size)
    {slot : Slot K V} (mem : slot ∈ (table.current.chainAt index).slots) (full : slot.IsFull) :
    table.Settled index := by
  intro resize growing
  have inUse := sound.resizing resize growing
  have pos := Nat.zero_lt_of_lt inUse.cursor_lt
  apply (inUse.chains _ (Nat.mod_lt index pos)).resolve_right
  intro waiting
  rw [inUse.untouched bound waiting, Chain.slots_empty] at mem
  rw [List.eq_of_mem_replicate mem] at full
  exact Slot.not_isFull_of_isEmpty rfl full

theorem Sound.settled_of_live (sound : table.Sound rules) (bound : index < table.current.size)
    {item : UInt8 × Entry K V} (mem : item ∈ (table.current.chainAt index).live) :
    table.Settled index :=
  sound.settled_of_full bound (Row.mem_live.mp mem)
    ⟨_, _, (sound.chains index bound).tidy.minTopHash_le mem, rfl⟩

/-- A live slot may be given another entry, if its place admits the key. -/
theorem Sound.put (sound : table.Sound rules) (holds : table.Holds pos top entry)
    (new : Entry K V) (admits : ∀ size index,
      (pos.era = .current → size = table.current.size ∧ index = pos.index) →
      rules.admits table.seed size index top entry.key →
      rules.admits table.seed size index top new.key) :
    Sound rules (table.put pos (.full top new)) ∧ ∃ rest, table.entries.Perm (entry :: rest) ∧
      (table.put pos (.full top new)).entries.Perm (new :: rest) := by
  rcases pos with ⟨_ | _, index, offset⟩
  · obtain ⟨bound, slot⟩ := holds_current.mp holds
    obtain ⟨chain, rest, before, after⟩ :=
      (sound.chains index bound).set_entry new slot (admits _ _ fun _ => ⟨rfl, rfl⟩)
    have written := BucketArray.chainAt_setSlot bound offset (.full top new)
    have size := BucketArray.size_setSlot table.current index offset (.full top new)
    have others (i : Nat) (ne : i ≠ index) := (written i).trans (if_neg ne)
    have here := (written index).trans (if_pos rfl)
    obtain ⟨rest', all, all'⟩ := entries_write_current bound size others
    rw [here] at all'
    replace all := all.trans (before.append_right rest')
    replace all' := all'.trans (after.append_right rest')
    have settled := sound.settled_of_live bound (Row.mem_live.mpr (List.mem_of_getElem? slot))
    refine ⟨?_, rest ++ rest', all, all'⟩
    refine sound.write_current settled size others (here ▸ chain) table.count
      table.overflowCount ?_
    exact (sound.count.trans all.length_eq).trans all'.length_eq.symm
  · obtain ⟨resize, growing, bound, slot⟩ := holds_former.mp holds
    have waiting := sound.waiting_of_live growing bound
      (Row.mem_live.mpr (List.mem_of_getElem? slot))
    obtain ⟨chain, rest, before, after⟩ :=
      waiting.sound.set_entry new slot (admits _ _ fun current => by cases current)
    have written := BucketArray.chainAt_setSlot bound offset (.full top new)
    have size := BucketArray.size_setSlot resize.array index offset (.full top new)
    have others (i : Nat) (ne : i ≠ index) := (written i).trans (if_neg ne)
    have here := (written index).trans (if_pos rfl)
    obtain ⟨rest', all, all'⟩ := entries_write_former growing bound size others
    rw [here] at all'
    replace all := all.trans (before.append_right rest')
    replace all' := all'.trans (after.append_right rest')
    have shape : table.put ⟨.former, index, offset⟩ (.full top new) = { table with
        resize := some
          { resize with array := resize.array.setSlot index offset (.full top new) } } := by
      simp [Table.put, growing]
    rw [shape]
    refine ⟨?_, rest ++ rest', all, all'⟩
    refine sound.write_former growing size others waiting.not_vacated (here ▸ chain)
      table.count ?_
    exact (sound.count.trans all.length_eq).trans all'.length_eq.symm

theorem ends_updateEntry (holds : table.Holds pos top entry) (f : Entry K V → Entry K V)
    {env : Env δ} {post : Entry K V → Table K V × Env δ → Prop}
    {fails : Failure → Table K V × Env δ → Prop} :
    Ends (updateEntry pos f) (table, env) post fails ↔
      post entry (table.put pos (.full top (f entry)), env) := by
  unfold updateEntry
  rw [ends_bind, ends_read, ends_bind, ends_check_ok holds]
  obtain ⟨era, index, offset⟩ := pos
  cases era <;> exact Iff.rfl

theorem updateEntry_yields (holds : table.Holds pos top entry) (f : Entry K V → Entry K V)
    (env : Env δ) :
    Yields (updateEntry pos f) (table, env) fun before s =>
      before = entry ∧ s.1 = table.put pos (.full top (f entry)) :=
  (ends_updateEntry holds f).mpr ⟨rfl, rfl⟩

end Table

end GradualMap
