import GradualMap.Proofs.Flock

/-!
What the steps of a table do to its strays. An evacuation leaves each with the index that was read
of its hash byte before, and every other step leaves it where it is.
-/

namespace GradualMap

open GradualMap.Action

variable {K V δ : Type} {reading : Reading K} {scheme : KeyScheme K δ}

/-- A doubling deals strays out by the lowest bit of their hash byte. -/
theorem Routing.Carries.half_of_stray (follows : scheme.Follows reading) {routing : Routing}
    {item : UInt8 × Entry K V} {moved : Half × UInt8 × Entry K V}
    (carries : routing.Carries scheme item moved) (stray : reading.Stray item.2.key) :
    moved.1 = if routing.sameSize = true then .low
      else if item.1.toNat % 2 = 1 then .high else .low := by
  obtain ⟨_, env, run⟩ := carries
  have dealt : Ends (routing.route scheme item.1 item.2.key) env (fun routed _ => routed.1 =
      if routing.sameSize = true then .low else if item.1.toNat % 2 = 1 then .high else .low)
      fun _ _ => True := by
    unfold Routing.route
    split
    · exact rfl
    · rw [ends_bind]
      refine ends_run.mono (fun _ env' _ => ?_) fun _ _ _ => trivial
      rw [ends_bind]
      apply (follows.reproduces.selfEqual_yields item.2.key env').ends
      rintro _ _ rfl
      rw [stray]
      exact rfl
  exact dealt.of_ok run

/-- Two stages of a resize that are read alike for an index. -/
def Resize.ReadsAlike (index : Nat) (before after : Resize K V) : Prop :=
  after.sameSize = before.sameSize ∧ after.array.size = before.array.size ∧
    after.array.chainAt (index % before.array.size) =
      before.array.chainAt (index % before.array.size)

theorem Resize.readsAlike_refl (index : Nat) (resize : Option (Resize K V)) :
    Option.Rel (Resize.ReadsAlike index) resize resize := by
  cases resize with
  | none => exact .none
  | some resize => exact .some ⟨rfl, rfl, rfl⟩

section

variable {item : UInt8 × Entry K V} {items rest : List (UInt8 × Entry K V)}

/-- Known entries do not count among the strays of some choice. -/
theorem strays_filter_of_known (known : reading.same item.2.key item.2.key = true)
    (all : items.Perm (item :: rest)) (p : UInt8 × Entry K V → Bool) :
    strays reading ((items.filter p).map (·.2)) = strays reading ((rest.filter p).map (·.2)) := by
  rw [strays_perm ((all.filter p).map (·.2)), List.filter_cons]
  split
  · rw [List.map_cons, strays_cons, strays_of_known known, zero_add]
  · rfl

theorem Chain.strays_set {chain : Chain K V} {offset : Nat} {top : UInt8} {entry new : Entry K V}
    (slot : chain.slots[offset]? = some (.full top entry))
    (known : reading.same entry.key entry.key = true)
    (known' : reading.same new.key new.key = true) (p : UInt8 × Entry K V → Bool) :
    strays reading (((chain.set offset (.full top new)).live.filter p).map (·.2)) =
      strays reading ((chain.live.filter p).map (·.2)) := by
  obtain ⟨rest, before, after⟩ := Row.live_set slot
  exact (strays_filter_of_known known' (after (.full top new)) p).trans
    (strays_filter_of_known known before p).symm

end

namespace Table

variable {table after : Table K V} {resize : Resize K V} {index old offset : Nat} {drops : Bool}
  {fresh : Multiset (Entry K V)}

theorem straysAt_of_settled (sound : table.Sound (reading.rules True))
    (settled : table.Settled index) :
    table.straysAt reading index = strays reading (table.current.chainAt index).entries := by
  rw [straysAt, share_of_settled sound settled]
  rfl

theorem straysAt_of_waiting (sound : table.Sound (reading.rules True))
    (growing : table.resize = some resize)
    (waits : ¬ resize.Vacated (index % resize.array.size)) :
    table.straysAt reading index = strays reading
      (((resize.array.chainAt (index % resize.array.size)).live.filter fun item =>
        table.destined reading index item.1 item.2.key).map (·.2)) := by
  rw [straysAt, share_of_waiting sound growing waits]

/-- What an index has depends on the chains that are read for it, and on how they are read. -/
theorem share_congr (exponent : after.exponent = table.exponent) (seed : after.seed = table.seed)
    (here : after.current.chainAt index = table.current.chainAt index)
    (there : Option.Rel (Resize.ReadsAlike index) table.resize after.resize) :
    after.share reading index = table.share reading index := by
  have home : after.home index = table.home index := by
    unfold home
    generalize after.resize = is, table.resize = was at there
    cases there with
    | none => rfl
    | some alike => simp only [alike.2.1, alike.2.2]
  have chain : after.chainAt (table.home index) = table.chainAt (table.home index) := by
    unfold Table.home
    split
    · exact here
    · rename_i growing
      split
      · exact here
      · unfold chainAt
        rw [growing] at there ⊢
        generalize after.resize = is at there
        cases there with
        | some alike => exact alike.2.2
  have destined : after.destined reading index = table.destined reading index := by
    funext top key
    unfold Table.destined
    rw [exponent, seed]
    generalize after.resize = is, table.resize = was at there
    cases there with
    | none => rfl
    | some alike => simp only [alike.1, alike.2.1]
  unfold share only
  rw [home, chain]
  split
  · exact congrArg (List.filter · _) (funext fun item => congrFun (congrFun destined _) _)
  · rfl

end Table

/-- A stray goes to the half whose index it was destined for. -/
theorem Routing.Carries.half_iff (follows : scheme.Follows reading) {table : Table K V}
    {resize : Resize K V} (growing : table.resize = some resize) {old : Nat}
    (bound : old < resize.array.size) {half : Half}
    (uses : (resize.routing table.seed).Uses half) {item : UInt8 × Entry K V}
    {move : Half × UInt8 × Entry K V}
    (carries : (resize.routing table.seed).Carries scheme item move)
    (stray : reading.Stray item.2.key) :
    move.1 = half ↔ table.destined reading ((resize.routing table.seed).target old half)
      item.1 item.2.key = true := by
  have pos := Nat.zero_lt_of_lt bound
  have odd := Nat.mod_two_eq_zero_or_one item.1.toNat
  have unknown : reading.same item.2.key item.2.key = false := stray
  rw [carries.half_of_stray follows stray]
  unfold Table.destined Routing.target
  simp only [growing, unknown]
  cases half with
  | low =>
    rcases odd with odd | odd <;> cases same : resize.sameSize <;>
      simp [Resize.routing, same, odd, Nat.div_eq_of_lt bound]
  | high =>
    have doubling : resize.sameSize = false := uses rfl
    rcases odd with odd | odd <;>
      simp [Resize.routing, doubling, odd, Nat.add_div_right _ pos, Nat.div_eq_of_lt bound]

/-- What a half receives of the strays is what was destined for its index. -/
theorem strays_received (follows : scheme.Follows reading) {table : Table K V}
    {resize : Resize K V} (growing : table.resize = some resize) {old : Nat}
    (bound : old < resize.array.size) {half : Half}
    (uses : (resize.routing table.seed).Uses half) {items : List (UInt8 × Entry K V)}
    {moved : List (Half × UInt8 × Entry K V)}
    (carried : List.Forall₂ ((resize.routing table.seed).Carries scheme) items moved) :
    strays reading ((received half moved).map (·.2)) =
      strays reading ((items.filter fun item => table.destined reading
        ((resize.routing table.seed).target old half) item.1 item.2.key).map (·.2)) := by
  induction carried with
  | nil => rfl
  | @cons item move items moved carries carried ih =>
    rw [received_cons, List.map_append, strays_append, ih]
    by_cases known : reading.same item.2.key item.2.key = true
    · have known' : reading.same move.2.2.key move.2.2.key = true := carries.1 ▸ known
      rw [strays_filter_of_known known (.refl _)]
      split
      · rw [List.map_singleton, strays_of_known known', zero_add]
      · simp
    · have dealt := carries.half_iff follows growing bound uses (Bool.eq_false_iff.mpr known)
      rw [List.filter_cons]
      by_cases here : move.1 = half
      · rw [if_pos here, if_pos (dealt.mp here), List.map_cons, List.map_cons, carries.1]
        exact (strays_cons _ _).symm
      · rw [if_neg here, if_neg fun there => here (dealt.mpr there)]
        simp

namespace Table

variable {table after : Table K V} {resize : Resize K V} {index old offset : Nat} {drops : Bool}
  {pos : Position} {top : UInt8} {entry : Entry K V} {fresh : Multiset (Entry K V)}

theorem straysAt_congr (exponent : after.exponent = table.exponent)
    (seed : after.seed = table.seed)
    (here : after.current.chainAt index = table.current.chainAt index)
    (there : Option.Rel (Resize.ReadsAlike index) table.resize after.resize) :
    after.straysAt reading index = table.straysAt reading index := by
  rw [straysAt, straysAt, share_congr exponent seed here there]

/-- The indices that a chain feeds share its strays. -/
theorem straysAt_started (sound : table.Sound (reading.rules True))
    (sound' : table.started.Sound (reading.rules True)) (idle : table.resize = none)
    (growing : table.started.resize = some resize) (array : resize.array = table.current)
    (bound : index < table.current.size) :
    table.straysAt reading index = table.started.straysAt reading index +
      if resize.sameSize then 0
      else table.started.straysAt reading (index + table.current.size) := by
  have shares := (share_split sound' growing (array ▸ bound)).map (·.2)
  have empty (i : Nat) : table.started.current.chainAt i = .empty := by simp [Table.started]
  rw [empty, empty, Chain.live_empty, List.nil_append, List.nil_append, array] at shares
  rw [straysAt_of_settled sound (settled_of_idle idle index), Chain.entries, ← strays_perm shares]
  cases resize.sameSize <;> simp [straysAt]

/-- Whoever feeds an index. -/
theorem Sound.half_of {rules : Rules K} (sound : table.Sound rules)
    (growing : table.resize = some resize) (bound : index < table.current.size) :
    ∃ half, (resize.routing table.seed).Uses half ∧
      (resize.routing table.seed).target (index % resize.array.size) half = index := by
  have size := (sound.resizing resize growing).size
  by_cases low : index < resize.array.size
  · exact ⟨.low, by simp [Routing.Uses], Nat.mod_eq_of_lt low⟩
  · cases same : resize.sameSize with
    | true =>
      rw [same, if_pos rfl] at size
      omega
    | false =>
      rw [same, if_neg Bool.false_ne_true] at size
      refine ⟨.high, fun _ => same, ?_⟩
      change index % resize.array.size + resize.array.size = index
      rw [Nat.mod_eq_sub_mod (Nat.le_of_not_lt low), Nat.mod_eq_of_lt (by omega)]
      omega

namespace Herded

/-- The strays of an old chain come to the indices that were read of their hash bytes. -/
theorem move (follows : scheme.Follows reading) (sound : table.Sound (reading.rules True))
    (growing : table.resize = some resize) (bound : old < resize.array.size)
    (waits : ¬ resize.Vacated old) {moved : List (Half × UInt8 × Entry K V)}
    (carried : List.Forall₂ ((resize.routing table.seed).Carries scheme)
      (resize.array.chainAt old).live moved)
    (dealt : Dealt (resize.routing table.seed) old (fun _ => []) moved table after) :
    Herded reading drops 0 table after := by
  have waiting := ((sound.resizing resize growing).chains old bound).resolve_left waits
  have sound' : after.Sound (reading.rules True) :=
    dealt.sound (reading.rules_keptBy follows.reproduces True) sound growing bound waiting carried
  obtain ⟨array, growing', size, others, vacated⟩ := dealt.vacated resize growing
  refine .of_same dealt.exponent dealt.size fun i inside => ?_
  -- An index that the chain feeds now has its share itself; any other one is read as before.
  by_cases fed : i % resize.array.size = old
  · obtain ⟨half, uses, target⟩ := sound.half_of growing inside
    rw [fed] at target
    have settled : after.Settled i := by
      intro resize' growing''
      obtain rfl := Option.some.inj (growing'.symm.trans growing'')
      unfold Resize.Vacated
      rw [size, fed]
      exact vacated
    have filled := (dealt.filled half uses).row.live
    rw [List.nil_append, target] at filled
    rw [straysAt_of_settled sound' settled, straysAt_of_waiting sound growing (fed ▸ waits), fed,
      Chain.entries, Chain.live, filled, strays_received follows growing bound uses carried, target]
  · refine straysAt_congr dealt.exponent dealt.seed (dealt.others i fun half _ target => fed ?_) ?_
    · rw [target]
      cases half with
      | low => exact Nat.mod_eq_of_lt bound
      | high => exact (Nat.add_mod_right old _).trans (Nat.mod_eq_of_lt bound)
    · rw [growing, growing']
      exact .some ⟨rfl, size, others _ fed⟩

theorem shift (follows : scheme.Follows reading) {before after : Table K V × List Event}
    (sound : before.1.Sound (reading.rules True)) (shift : Shift scheme before after) :
    Herded reading drops 0 before.1 after.1 := by
  cases shift with
  | move growing bound waits carried dealt =>
    exact .move follows sound growing bound waits carried dealt
  | advance growing =>
    refine .of_same rfl rfl fun i _ => straysAt_congr rfl rfl rfl ?_
    rw [growing]
    exact .some ⟨rfl, rfl, rfl⟩
  | @finish table _ resize growing all =>
    refine .of_same rfl rfl fun i _ => ?_
    have settled : table.Settled i := by
      intro resize' growing'
      obtain rfl := Option.some.inj (growing.symm.trans growing')
      exact all _ (Nat.mod_lt i (Nat.zero_lt_of_lt (sound.resizing _ growing).cursor_lt))
    rw [straysAt_of_settled sound settled, straysAt_of_settled
      (sound.drop_resize growing all).1 (settled_of_idle rfl i)]

/-- A resize that starts has moved nothing yet. The two indices that a chain feeds in a doubling are
one modulo any size so far. -/
theorem start (sound : table.Sound (reading.rules True)) (idle : table.resize = none)
    (allocated : table.current.size ≠ 0) (small : table.started.exponent < exponentLimit) :
    Herded reading drops 0 table table.started := by
  have size := sound.size_eq allocated
  have sound' := sound.started idle size small
  obtain ⟨resize, growing, fresh, array⟩ := (started_spec sound idle).fresh
  have split (i : Nat) (bound : i < table.current.size) :=
    straysAt_started sound sound' idle growing array bound
  have grows : table.started.exponent =
      if resize.sameSize then table.exponent else table.exponent + 1 := by
    obtain rfl := Option.some.inj growing
    unfold Table.started
    cases overloaded (table.count + 1) table.exponent <;> rfl
  have size' := (sound'.resizing resize growing).size
  rw [array] at size'
  cases sameSize : resize.sameSize with
  | true =>
    rw [sameSize, if_pos rfl] at grows size'
    refine .of_same grows size' fun i bound => ?_
    rw [split i bound, sameSize, if_pos rfl, add_zero]
  | false =>
    simp only [sameSize, Bool.false_eq_true, if_false] at grows size' split
    have same (exponent : Nat) (le : exponent ≤ table.exponent) (among : Nat → Bool) :
        table.started.flock reading exponent among = table.flock reading exponent among := by
      obtain ⟨k, double⟩ : bucketCount exponent ∣ table.current.size :=
        size ▸ Nat.pow_dvd_pow 2 le
      unfold flock
      -- The upper half of the sum is added to the lower one, index by index.
      rw [size', Nat.two_mul, Finset.sum_range_add, ← Finset.sum_add_distrib]
      refine Finset.sum_congr rfl fun i mem => ?_
      rw [split i (Finset.mem_range.mp mem), Nat.add_comm table.current.size i]
      rw [show (i + table.current.size) % bucketCount exponent = i % bucketCount exponent by
        rw [double, Nat.add_mul_mod_self_left]]
      split_ifs <;> simp
    refine ⟨grows ▸ Nat.le_succ _, fun exponent le among => ?_, fun _ exponent le among => ?_⟩
    · rw [same exponent le, add_zero]
    · rw [same exponent le]

theorem reserve (sound : table.Sound (reading.rules True)) (bare : table.current.size = 0) :
    Herded reading drops 0 table table.reserved := by
  obtain ⟨sound', entries⟩ := sound.reserved bare
  have none : table.entries = [] := by
    refine List.eq_nil_iff_forall_not_mem.mpr fun entry mem => ?_
    rcases mem_entries.mp mem with ⟨i, bound, _⟩ | ⟨resize, growing, _⟩
    · omega
    · rw [sound.resize_eq_none bare] at growing
      cases growing
  exact .of_bare sound none sound' (entries.trans none) (Nat.le_refl _)

theorem drift (follows : scheme.Follows reading) {before after : Table K V × List Event}
    (sound : before.1.Sound (reading.rules True)) (drift : Drift scheme before after) :
    Herded reading drops 0 before.1 after.1 := by
  cases drift with
  | shift shift => exact .shift follows sound shift
  | reserve bare => exact .reserve sound bare
  | start idle allocated small => exact .start sound idle allocated small

theorem drifts (follows : scheme.Follows reading) {before after : Table K V × List Event}
    (sound : before.1.Sound (reading.rules True)) (drifts : Drifts scheme before after) :
    after.1.Sound (reading.rules True) ∧ Herded reading drops 0 before.1 after.1 := by
  induction drifts with
  | refl => exact ⟨sound, .refl _⟩
  | tail _ drift ih =>
    obtain ⟨sound', herded⟩ := ih
    exact ⟨drift.step.sound (reading.rules_keptBy follows.reproduces True) sound',
      herded.later (.drift follows sound' drift)⟩

/-- A settled chain of the current array is the place of one index only. -/
theorem write_current (sound : table.Sound (reading.rules True)) (settled : table.Settled index)
    {current : BucketArray K V} {count overflowCount : Nat}
    (sound' : Sound (reading.rules True) { table with current, count, overflowCount })
    (size : current.size = table.current.size)
    (others : ∀ i, i ≠ index → current.chainAt i = table.current.chainAt i)
    (here : strays reading (current.chainAt index).entries =
      strays reading (table.current.chainAt index).entries + fresh) :
    Herded reading drops fresh table { table with current, count, overflowCount } := by
  refine .of_shares rfl size index fun i _ => ?_
  by_cases same : i = index
  · subst same
    rw [straysAt_of_settled sound settled, straysAt_of_settled sound' settled, if_pos rfl, here]
  · rw [if_neg same, add_zero]
    exact straysAt_congr rfl rfl (others i same) (Resize.readsAlike_refl i _)

theorem room {before after : Table K V × List Event}
    (sound : before.1.Sound (reading.rules True)) (bound : index < before.1.current.size)
    (settled : before.1.Settled index) (room : Room index before offset after) :
    Herded reading drops 0 before.1 after.1 := by
  have sound' := (room.roomed sound bound settled).sound
  cases room with
  | free => exact .refl _
  | linked full overflowCount counted =>
    have written := BucketArray.chainAt_link bound
    refine .write_current sound settled sound' (BucketArray.size_link ..)
      (fun i ne => (written i).trans (if_neg ne)) ?_
    rw [written index, if_pos rfl, Chain.entries, Chain.live_link, add_zero]
    rfl

theorem filled (sound : table.Sound (reading.rules True)) {hash : UInt64}
    (bound : index < table.current.size) (settled : table.Settled index)
    (free : (table.current.chainAt index).slots.findIdx? (·.tag.isEmpty) = some offset)
    (admits : (reading.rules True).admits table.seed table.current.size index (topHash hash)
      entry.key) :
    Herded reading drops (strays reading [entry]) table (table.filled index offset hash entry) := by
  have written := BucketArray.chainAt_setSlot bound offset (.full (topHash hash) entry)
  refine .write_current sound settled (sound.filled bound settled free admits).1
    (BucketArray.size_setSlot ..) (fun i ne => (written i).trans (if_neg ne)) ?_
  rw [written index, if_pos rfl, strays_perm ((sound.chains index bound).fill free admits).2,
    strays_cons, add_comm]

/-- No stray is taken out with an entry that a look-up finds. -/
theorem without (sound : table.Sound (reading.rules True))
    (holds : table.Holds ⟨.current, index, offset⟩ top entry)
    (known : reading.same entry.key entry.key = true) :
    Herded reading drops 0 table (table.without index offset) := by
  obtain ⟨bound, slot⟩ := holds_current.mp holds
  have settled := sound.settled_of_live bound (Row.mem_live.mpr (List.mem_of_getElem? slot))
  have written := BucketArray.chainAt_modify_setSlot bound offset .hole (·.settleAt offset)
  refine .write_current sound settled (sound.without holds).1 (by simp)
    (fun i ne => (written i).trans (if_neg ne)) ?_
  rw [written index, if_pos rfl, strays_perm ((sound.chains index bound).remove slot).2,
    strays_cons, strays_of_known known, zero_add, add_zero]

/-- Nor is one changed with it. -/
theorem put_current (sound : table.Sound (reading.rules True))
    (holds : table.Holds ⟨.current, index, offset⟩ top entry)
    (known : reading.same entry.key entry.key = true) {new : Entry K V}
    (known' : reading.same new.key new.key = true)
    (sound' : (table.put ⟨.current, index, offset⟩ (.full top new)).Sound (reading.rules True)) :
    Herded reading drops 0 table (table.put ⟨.current, index, offset⟩ (.full top new)) := by
  obtain ⟨bound, slot⟩ := holds_current.mp holds
  have settled := sound.settled_of_live bound (Row.mem_live.mpr (List.mem_of_getElem? slot))
  have written := BucketArray.chainAt_setSlot bound offset (.full top new)
  refine .write_current sound settled sound' (BucketArray.size_setSlot ..)
    (fun i ne => (written i).trans (if_neg ne)) ?_
  rw [written index, if_pos rfl, add_zero]
  simpa [Chain.entries] using Chain.strays_set slot known known' fun _ => true

/-- The old chain waits before and after, since it holds an entry. -/
theorem put_former (sound : table.Sound (reading.rules True))
    (holds : table.Holds ⟨.former, index, offset⟩ top entry)
    (known : reading.same entry.key entry.key = true) {new : Entry K V}
    (known' : reading.same new.key new.key = true)
    (sound' : (table.put ⟨.former, index, offset⟩ (.full top new)).Sound (reading.rules True)) :
    Herded reading drops 0 table (table.put ⟨.former, index, offset⟩ (.full top new)) := by
  obtain ⟨resize, growing, bound, slot⟩ := holds_former.mp holds
  have shape : table.put ⟨.former, index, offset⟩ (.full top new) = { table with
      resize := some
        { resize with array := resize.array.setSlot index offset (.full top new) } } := by
    simp [Table.put, growing]
  have written := BucketArray.chainAt_setSlot bound offset (.full top new)
  have size := BucketArray.size_setSlot resize.array index offset (.full top new)
  rw [shape] at sound' ⊢
  refine .of_same rfl rfl fun i _ => ?_
  by_cases fed : i % resize.array.size = index
  · have waits := (sound.waiting_of_live growing bound
      (Row.mem_live.mpr (List.mem_of_getElem? slot))).not_vacated
    obtain ⟨_, _, after⟩ := Row.live_set slot
    have stored : (top, new) ∈
        ((resize.array.setSlot index offset (.full top new)).chainAt index).live := by
      rw [written index, if_pos rfl]
      exact (after (.full top new)).mem_iff.mpr (.head _)
    have waits' := (sound'.waiting_of_live rfl (size.symm ▸ bound) stored).not_vacated
    rw [straysAt_of_waiting sound growing (fed ▸ waits),
      straysAt_of_waiting sound' rfl (by rw [size, fed]; exact waits')]
    simp only [size, fed]
    rw [written index, if_pos rfl]
    refine (Chain.strays_set slot known known' _).trans ?_
    unfold Table.destined
    simp only [growing, size]
  · refine straysAt_congr rfl rfl rfl ?_
    rw [growing]
    exact .some ⟨rfl, size, (written _).trans (if_neg fed)⟩

theorem put (sound : table.Sound (reading.rules True)) (holds : table.Holds pos top entry)
    (known : reading.same entry.key entry.key = true) {new : Entry K V}
    (known' : reading.same new.key new.key = true)
    (sound' : (table.put pos (.full top new)).Sound (reading.rules True)) :
    Herded reading drops 0 table (table.put pos (.full top new)) := by
  rcases pos with ⟨_ | _, index, offset⟩
  · exact put_current sound holds known known' sound'
  · exact put_former sound holds known known' sound'

end Herded

end Table

end GradualMap
