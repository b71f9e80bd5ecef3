import GradualMap.Proofs.Crowding

/-!
The estimate of the overflow buckets. An evacuation links a bucket only for eight entries that it
moves, and an insertion amid a resize links one at most, for which it moves the cursor. So there are
never so many of them that the estimate could not count on, as long as it counts them all.
-/

namespace GradualMap

variable {K V δ : Type}

/-- The slots of overflow buckets that a resize has room for where its cursor stands. -/
def Resize.credit (resize : Resize K V) (exponent : Nat) : Nat :=
  bucketSize * resize.cursor + if resize.sameSize then threshold exponent else ceiling (exponent - 1)

namespace Table

/-- The slots of overflow buckets that the table may have as it is. -/
def credit (table : Table K V) : Nat :=
  match table.resize with
  | none => bucketSize * bucketCount table.exponent + threshold table.exponent
  | some resize => resize.credit table.exponent

/-- Every overflow bucket counted is paid for; the entries that are still to be moved will pay for
theirs. -/
def Covered (table : Table K V) : Prop :=
  bucketSize * table.overflowCount + table.former.length ≤ table.credit

variable {rules : Rules K} {scheme : KeyScheme K δ} {table : Table K V} {resize : Resize K V}
  {before after : Table K V × List Event}

theorem credit_of_idle (idle : table.resize = none) :
    table.credit = bucketSize * bucketCount table.exponent + threshold table.exponent := by
  simp only [credit, idle]

theorem credit_of_growing (growing : table.resize = some resize) :
    table.credit = resize.credit table.exponent := by
  simp only [credit, growing]

theorem former_of_idle (idle : table.resize = none) : table.former = [] := by
  simp [former, idle]

/-- A resize that ends leaves no more credit than a table at rest has. -/
theorem Sound.credit_le (sound : table.Sound rules) :
    table.credit ≤ bucketSize * bucketCount table.exponent + threshold table.exponent := by
  cases growing : table.resize with
  | none => exact Nat.le_of_eq (credit_of_idle growing)
  | some resize =>
    have lt := (sound.resizing resize growing).cursor_lt
    have size := sound.former_size growing
    rw [credit_of_growing growing]
    unfold Resize.credit
    by_cases same : resize.sameSize = true
    · rw [if_pos same] at size ⊢
      rw [size] at lt
      simp only [bucketSize]
      omega
    · rw [if_neg same] at size ⊢
      obtain ⟨pos, size⟩ := size
      obtain ⟨smaller, exponent⟩ : ∃ smaller, table.exponent = smaller + 1 :=
        ⟨table.exponent - 1, by omega⟩
      rw [exponent, Nat.add_sub_cancel] at size ⊢
      rw [size] at lt
      simp only [threshold, ceiling, bucketSize, bucketCount_succ]
      omega

/-- The entries that are moved pay for the buckets that they are moved to. -/
theorem Steady.paid {before after : Table K V} (steady : Steady before after) :
    bucketSize * after.overflowCount + after.former.length ≤
      bucketSize * before.overflowCount + before.former.length := by
  have overflow := steady.overflow
  have moved := steady.entries.length_eq
  simp only [Table.entries, List.length_append] at moved
  omega

theorem Shift.covered (sound : before.1.Sound Rules.any) (shift : Shift scheme before after)
    (covered : before.1.Covered) : after.1.Covered := by
  obtain ⟨_, steady⟩ := shift.sound (Rules.any_heldBy scheme) sound
  refine Nat.le_trans steady.paid (Nat.le_trans covered ?_)
  cases shift with
  | @move table after log resize old moved growing bound waits carried dealt =>
    obtain ⟨array, growing', _⟩ := dealt.vacated resize growing
    rw [credit_of_growing growing, credit_of_growing growing', dealt.exponent]
    exact Nat.le_refl _
  | @advance table log resize cursor growing ahead bound passed =>
    have more := Nat.mul_le_mul_left bucketSize (Nat.le_of_lt ahead)
    rw [credit_of_growing growing]
    exact Nat.add_le_add_right more _
  | finish growing all => exact sound.credit_le

/-- Another bucket is covered once the cursor has moved for it, or the estimate was looked at. -/
theorem Worked.covered {index : Nat} (sound : before.1.Sound Rules.any)
    (worked : Worked scheme index before after) (calm : after.1.mustGrow = false)
    (covered : before.1.Covered) :
    bucketSize * (after.1.overflowCount + 1) + after.1.former.length ≤ after.1.credit := by
  obtain ⟨_, steady⟩ := worked.shifts.sound (Rules.any_heldBy scheme) sound
  cases growing : after.1.resize with
  | none =>
    rw [credit_of_idle growing, former_of_idle growing]
    simp only [mustGrow, growing, Option.isNone_none, Bool.true_and, Bool.or_eq_false_iff,
      tooScattered, decide_eq_false_iff_not, Nat.not_le] at calm
    have few : bucketCount (min after.1.exponent 15) ≤ bucketCount after.1.exponent :=
      Nat.pow_le_pow_right (by decide) (Nat.min_le_left _ _)
    simp only [bucketSize, List.length_nil]
    omega
  | some resize' =>
    obtain ⟨resize, growing', _, same, further⟩ := worked.further resize' growing
    have paid := steady.paid
    unfold Covered at covered
    rw [credit_of_growing growing'] at covered
    rw [credit_of_growing growing, steady.exponent]
    unfold Resize.credit at covered ⊢
    rw [same]
    simp only [bucketSize] at *
    omega

theorem Shift.gauged (shift : Shift scheme before after) (gauged : before.1.Gauged) :
    after.1.Gauged := by
  cases shift with
  | move growing bound waits carried dealt => exact dealt.gauged gauged
  | advance growing ahead bound passed => exact ⟨gauged.le, gauged.exact⟩
  | finish growing all => exact ⟨gauged.le, gauged.exact⟩

theorem Shifts.gauged (shifts : Shifts scheme before after) (gauged : before.1.Gauged) :
    after.1.Gauged := by
  induction shifts with
  | refl => exact gauged
  | tail _ shift ih => exact shift.gauged ih

theorem Room.gauged {index offset : Nat} (room : Room index before offset after)
    (gauged : before.1.Gauged) : after.1.Gauged := by
  cases room with
  | free first => exact gauged
  | linked full overflowCount counted => exact gauged.counted rfl counted

theorem Room.overflowCount_le {index offset : Nat} (room : Room index before offset after) :
    after.1.overflowCount ≤ before.1.overflowCount + 1 := by
  cases room with
  | free first => exact Nat.le_succ _
  | linked full overflowCount counted => exact counted.le

/-- Chains there are as soon as buckets were linked to one. -/
theorem Step.bare (sound : before.1.Sound Rules.any) (step : Step scheme before after)
    (bare : before.1.current.size = 0 → before.1.current.linked = 0) :
    after.1.current.size = 0 → after.1.current.linked = 0 := by
  cases step with
  | shift shift =>
    have steady := (shift.sound (Rules.any_heldBy scheme) sound).2
    intro none
    have idle := sound.resize_eq_none (steady.size ▸ none)
    cases shift <;> simp_all
  | reserve none => exact fun _ => rfl
  | start idle allocated small => exact fun _ => rfl
  | fill allocated worked calm absent room hashes =>
    obtain ⟨_, _, roomed, _⟩ :=
      roomed_of_worked (Rules.any_heldBy scheme) sound allocated worked room hashes
    intro none
    have bound := roomed.bound
    simp only [filled, BucketArray.size_setSlot] at none
    omega
  | write holds value => simpa using bare
  | rekey holds judges hashes value => simpa using bare
  | remove holds => simpa [without] using bare
  | thin idle thinned =>
    intro none
    rw [thinned.linked]
    exact bare (thinned.size ▸ none)
  | reseed empty seed told => exact bare
  | clear seed => exact fun _ => rfl

theorem Step.gauged (step : Step scheme before after)
    (bare : before.1.current.size = 0 → before.1.current.linked = 0) (gauged : before.1.Gauged) :
    after.1.Gauged := by
  have same {table : Table K V} (linked : table.current.linked = before.1.current.linked)
      (overflow : table.overflowCount = before.1.overflowCount)
      (exponent : table.exponent = before.1.exponent) : table.Gauged := by
    refine ⟨?_, fun small => ?_⟩
    · rw [linked, overflow]
      exact gauged.le
    · rw [linked, overflow]
      exact gauged.exact (exponent ▸ small)
  cases step with
  | shift shift => exact shift.gauged gauged
  | reserve none => exact same (bare none).symm rfl rfl
  | start idle allocated small => exact ⟨Nat.le_refl _, fun _ => rfl⟩
  | fill allocated worked calm absent room hashes =>
    have more := room.gauged (worked.shifts.gauged gauged)
    exact ⟨more.le, more.exact⟩
  | write holds value => exact same (by simp) (by simp) (by simp)
  | rekey holds judges hashes value => exact same (by simp) (by simp) (by simp)
  | remove holds => exact same (by simp [without]) rfl rfl
  | thin idle thinned => exact same thinned.linked thinned.overflow thinned.exponent
  | reseed empty seed told => exact same rfl rfl rfl
  | clear seed => exact ⟨Nat.le_refl _, fun _ => rfl⟩

theorem credit_put (pos : Position) (slot : Slot K V) :
    (table.put pos slot).credit = table.credit := by
  obtain ⟨_ | _, index, offset⟩ := pos
  · rfl
  · unfold credit put
    cases table.resize <;> rfl

/-- Whichever array a slot is written in, as many entries as before are still to be moved. -/
theorem Sound.length_former_put {pos : Position} {slot : Slot K V} (sound : table.Sound rules)
    (sound' : (table.put pos slot).Sound rules) :
    (table.put pos slot).former.length = table.former.length := by
  have count := sound.count
  have count' := sound'.count
  rw [put_count] at count'
  simp only [entries, List.length_append] at count count'
  obtain ⟨_ | _, index, offset⟩ := pos
  · rfl
  · have current : (table.put ⟨.former, index, offset⟩ slot).current = table.current := rfl
    rw [current] at count'
    omega

theorem Step.covered (sound : before.1.Sound Rules.any) (step : Step scheme before after)
    (roomy : before.1.Uncrowded) (covered : before.1.Covered) : after.1.Covered := by
  have sound' := step.sound (Rules.any_heldBy scheme) sound
  cases step with
  | shift shift => exact shift.covered sound covered
  | reserve none => exact covered
  | @start table log idle allocated small =>
    -- Nothing is linked yet, and every entry is still to be moved.
    have left : table.started.former.length = table.count := by
      rw [sound.count, entries_of_idle idle]
      simp [former, started]
    change table.count ≤ table.allowance at roomy
    rw [allowance_of_idle idle] at roomy
    have credit : table.count ≤ table.started.credit := by
      unfold Table.credit Resize.credit
      cases bigger : overloaded (table.count + 1) table.exponent with
      | true => simpa [started, bigger] using roomy
      | false =>
        have le := le_threshold bigger
        simp only [started, bigger, Bool.not_false, if_true, Bool.false_eq_true, if_false]
        omega
    change 0 + table.started.former.length ≤ table.started.credit
    omega
  | @fill _ between roomier _ _ _ _ allocated worked calm absent room hashes =>
    obtain ⟨_, _, roomed, _⟩ :=
      roomed_of_worked (Rules.any_heldBy scheme) sound allocated worked room hashes
    have more := worked.covered sound calm covered
    have linked := Nat.mul_le_mul_left bucketSize room.overflowCount_le
    have former : roomier.1.former = between.1.former := by
      simp only [former, roomed.resize]
    have credit : roomier.1.credit = between.1.credit := by
      simp only [credit, roomed.resize, roomed.exponent]
    change bucketSize * roomier.1.overflowCount + roomier.1.former.length ≤ roomier.1.credit
    rw [former, credit]
    omega
  | write holds value =>
    unfold Covered
    rw [put_overflowCount, credit_put, sound.length_former_put sound']
    exact covered
  | rekey holds judges hashes value => exact covered
  | remove holds => exact covered
  | @thin table after log idle thinned =>
    change bucketSize * table.overflowCount + table.former.length ≤ table.credit at covered
    unfold Covered
    rw [thinned.overflow, former_of_idle thinned.idle, credit_of_idle thinned.idle,
      thinned.exponent]
    rwa [former_of_idle idle, credit_of_idle idle] at covered
  | reseed empty seed told => exact covered
  | clear seed => exact Nat.zero_le _

/-- What every step keeps of the overflow buckets and of what pays for them. -/
structure Estimated (table : Table K V) : Prop where
  roomy : table.Uncrowded
  bare : table.current.size = 0 → table.current.linked = 0
  gauged : table.Gauged
  covered : table.Covered

theorem Step.estimated (sound : before.1.Sound Rules.any) (step : Step scheme before after)
    (estimated : before.1.Estimated) : after.1.Estimated where
  roomy := step.uncrowded sound estimated.roomy
  bare := step.bare sound estimated.bare
  gauged := step.gauged estimated.bare estimated.gauged
  covered := step.covered sound estimated.roomy estimated.covered

/-- So few overflow buckets are covered that the estimate can count more. -/
theorem Covered.overflowCount_lt (sound : table.Sound rules) (covered : table.Covered)
    (small : table.exponent < 16) : table.overflowCount < maxOverflowCount := by
  have enough := Nat.le_trans covered sound.credit_le
  have few : bucketCount table.exponent ≤ bucketCount 15 :=
    Nat.pow_le_pow_right (by decide) (Nat.le_of_lt_succ small)
  have most : bucketCount 15 = 32768 := rfl
  simp only [threshold, bucketSize, maxOverflowCount] at *
  omega

end Table

theorem Map.Fresh.estimated {rules : Rules K} {map : Map K V} (made : map.Fresh rules) :
    map.table.Estimated where
  roomy := by
    unfold Table.Uncrowded
    rw [made.sound.table.count, made.empty]
    exact Nat.zero_le _
  bare _ := made.linked
  gauged := by
    refine ⟨made.overflow ▸ Nat.zero_le _, fun _ => ?_⟩
    rw [made.overflow, made.linked]
    rfl
  covered := by
    unfold Table.Covered
    rw [made.overflow, Table.former_of_idle made.idle]
    exact Nat.zero_le _

theorem Reachable.estimated {scheme : KeyScheme K δ} {map : Map K V}
    (reachable : Reachable scheme map) : map.table.Estimated :=
  reachable.keeps (fun _ made => (made Rules.any).estimated) Table.Step.estimated

/-- However the keys are hashed and whatever calls a map has seen, the estimate is never above the
overflow buckets of the current array, and below `2 ^ 16` buckets it is their number and could
be greater by one. -/
theorem estimate_exact {scheme : KeyScheme K δ} {map : Map K V}
    (reachable : Reachable scheme map) :
    map.table.overflowCount ≤ map.table.current.linked ∧
    (map.table.exponent < 16 → map.table.overflowCount = map.table.current.linked ∧
      map.table.overflowCount < maxOverflowCount) := by
  have estimated := reachable.estimated
  refine ⟨estimated.gauged.le, fun small => ?_⟩
  have exact := estimated.gauged.exact small
  have lt := estimated.covered.overflowCount_lt reachable.intact.1 small
  refine ⟨?_, lt⟩
  omega

/-- Twelve even words under a hash that is the word itself: one of two chains has them all. -/
theorem estimate_exact_under_collisions : ∃ map : Map UInt64 Nat,
    map.table.exponent = 1 ∧ map.len = 12 ∧ map.table.current.linked = 1 ∧
    map.table.overflowCount ≤ map.table.current.linked ∧
    (map.table.exponent < 16 → map.table.overflowCount = map.table.current.linked ∧
      map.table.overflowCount < maxOverflowCount) := by
  have made : Reachable (V := Nat) (Key.Masked.scheme {}) _ := .made .empty (.lenient {}) rfl
  obtain ⟨map, grown, exponent, len, linked⟩ : ∃ map : Map UInt64 Nat,
      Reachable (Key.Masked.scheme {}) map ∧ map.table.exponent = 1 ∧ map.len = 12 ∧
      map.table.current.linked = 1 :=
    ⟨_, made.after (.extend ((List.range 12).map fun n => ((2 * n).toUInt64, n))) (.lenient {}) ()
      (by decide +kernel), by decide +kernel⟩
  exact ⟨map, exponent, len, linked, estimate_exact grown⟩

end GradualMap
