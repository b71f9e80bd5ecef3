import GradualMap.Proofs.Passage

/-!
How full a table gets. An insert amid a resize is not held back by the load of the table; but it
moves the cursor of the resize, and a resize starts with fewer entries than the table may hold once
the cursor has passed every old chain.
-/

namespace GradualMap

variable {K V δ : Type}

/-- The most entries that a resize leaves room for where its cursor stands. -/
def Resize.allowance (resize : Resize K V) (exponent : Nat) : Nat :=
  resize.cursor + if resize.sameSize then threshold exponent else ceiling (exponent - 1)

namespace Table

/-- The most entries that the table may have as it is. -/
def allowance (table : Table K V) : Nat :=
  match table.resize with
  | none => ceiling table.exponent
  | some resize => resize.allowance table.exponent

def Uncrowded (table : Table K V) : Prop :=
  table.count ≤ table.allowance

variable {rules : Rules K} {scheme : KeyScheme K δ} {table : Table K V} {resize : Resize K V}
  {before after : Table K V × List Event}

theorem allowance_of_idle (idle : table.resize = none) :
    table.allowance = ceiling table.exponent := by
  simp only [allowance, idle]

theorem allowance_of_growing (growing : table.resize = some resize) :
    table.allowance = resize.allowance table.exponent := by
  simp only [allowance, growing]

@[simp] theorem allowance_put (pos : Position) (slot : Slot K V) :
    (table.put pos slot).allowance = table.allowance := by
  obtain ⟨_ | _, index, offset⟩ := pos
  · rfl
  · unfold allowance put
    cases table.resize <;> rfl

theorem Sound.allowance_le (sound : table.Sound rules) :
    table.allowance ≤ ceiling table.exponent := by
  cases growing : table.resize with
  | none => exact Nat.le_of_eq (allowance_of_idle growing)
  | some resize =>
    have lt := (sound.resizing resize growing).cursor_lt
    have size := sound.former_size growing
    rw [allowance_of_growing growing]
    unfold Resize.allowance
    by_cases same : resize.sameSize = true
    · rw [if_pos same] at size ⊢
      exact threshold_add_lt (size ▸ lt)
    · rw [if_neg same] at size ⊢
      obtain ⟨pos, size⟩ := size
      have larger := ceiling_add_lt (size ▸ lt)
      rwa [Nat.sub_add_cancel pos] at larger

theorem Shift.uncrowded (sound : before.1.Sound Rules.any) (shift : Shift scheme before after)
    (roomy : before.1.Uncrowded) : after.1.Uncrowded := by
  cases shift with
  | @move table after log resize old moved growing bound waits carried dealt =>
    obtain ⟨array, growing', _⟩ := dealt.vacated resize growing
    change table.count ≤ table.allowance at roomy
    rw [allowance_of_growing growing] at roomy
    change after.count ≤ after.allowance
    rw [allowance_of_growing growing', dealt.count, dealt.exponent]
    exact roomy
  | @advance table log resize cursor growing ahead bound passed =>
    change table.count ≤ table.allowance at roomy
    rw [allowance_of_growing growing] at roomy
    unfold Resize.allowance at roomy
    change table.count ≤
      cursor + if resize.sameSize then threshold table.exponent else ceiling (table.exponent - 1)
    omega
  | finish growing all => exact Nat.le_trans roomy sound.allowance_le

theorem Shifts.uncrowded (sound : before.1.Sound Rules.any) (shifts : Shifts scheme before after)
    (roomy : before.1.Uncrowded) : after.1.Uncrowded := by
  induction shifts with
  | refl => exact roomy
  | tail shifts' shift ih =>
    exact shift.uncrowded (Shifts.sound shifts' (Rules.any_heldBy scheme) sound).1 ih

/-- Another entry has room once the cursor has moved for it, or the load was looked at. -/
theorem Worked.room {index : Nat} (sound : before.1.Sound Rules.any)
    (worked : Worked scheme index before after) (calm : after.1.mustGrow = false)
    (roomy : before.1.Uncrowded) : after.1.count + 1 ≤ after.1.allowance := by
  obtain ⟨_, steady⟩ := worked.shifts.sound (Rules.any_heldBy scheme) sound
  cases growing : after.1.resize with
  | none =>
    rw [allowance_of_idle growing]
    simp only [mustGrow, growing, Option.isNone_none, Bool.true_and, Bool.or_eq_false_iff] at calm
    exact le_ceiling calm.1
  | some resize' =>
    obtain ⟨resize, growing', _, same, further⟩ := worked.further resize' growing
    unfold Uncrowded at roomy
    rw [allowance_of_growing growing'] at roomy
    rw [allowance_of_growing growing, steady.count, steady.exponent]
    unfold Resize.allowance at roomy ⊢
    rw [same]
    omega

theorem Step.uncrowded (sound : before.1.Sound Rules.any) (step : Step scheme before after)
    (roomy : before.1.Uncrowded) : after.1.Uncrowded := by
  cases step with
  | shift shift => exact shift.uncrowded sound roomy
  | reserve bare => exact roomy
  | @start table log idle allocated small =>
    change table.count ≤ table.allowance at roomy
    rw [allowance_of_idle idle] at roomy
    change table.count ≤ 0 + _
    cases bigger : overloaded (table.count + 1) table.exponent with
    | true => simpa [started, bigger] using roomy
    | false =>
      have le := le_threshold bigger
      simp only [started, bigger, Bool.not_false, if_true, Bool.false_eq_true, if_false]
      omega
  | fill allocated worked calm absent room hashes =>
    obtain ⟨_, _, roomed, _⟩ :=
      roomed_of_worked (Rules.any_heldBy scheme) sound allocated worked room hashes
    have more := worked.room sound calm roomy
    unfold Uncrowded allowance at *
    change _ + 1 ≤ _
    rw [roomed.count, filled, roomed.resize, roomed.exponent]
    exact more
  | write holds value => simpa [Uncrowded] using roomy
  | rekey holds judges hashes value => simpa [Uncrowded] using roomy
  | remove holds => exact Nat.le_trans (Nat.sub_le _ _) roomy
  | @thin table after log idle thinned =>
    change table.count ≤ table.allowance at roomy
    have fewer := thinned.keys.length_le
    rw [List.length_map, List.length_map, ← sound.count, ← thinned.sound.count] at fewer
    rw [allowance_of_idle idle] at roomy
    unfold Uncrowded
    rw [allowance_of_idle thinned.idle, thinned.exponent]
    exact Nat.le_trans fewer roomy
  | reseed empty seed told => exact roomy
  | clear seed => exact Nat.zero_le _

end Table

/-- However full a table was and whatever resize was in flight when entries were added, a single
bucket has no more than eight, and several have no more than seven and a half on average. -/
theorem len_le_ceiling {scheme : KeyScheme K δ} {map : Map K V}
    (reachable : Reachable scheme map) :
    map.len ≤ max 8 (13 * (bucketCount map.table.exponent / 2) + bucketCount map.table.exponent) ∧
    (bucketCount map.table.exponent = 1 → map.len ≤ 8) ∧
    (1 < bucketCount map.table.exponent → 2 * map.len ≤ 15 * bucketCount map.table.exponent) := by
  have roomy : map.table.Uncrowded := by
    refine reachable.keeps (fun map fresh => ?_) Table.Step.uncrowded
    have made := fresh Rules.any
    unfold Table.Uncrowded
    rw [made.sound.table.count, made.empty]
    exact Nat.zero_le _
  have bounded : map.len ≤ ceiling map.table.exponent :=
    Nat.le_trans roomy reachable.intact.1.allowance_le
  simp only [ceiling, bucketSize] at bounded
  refine ⟨bounded, fun one => ?_, fun several => ?_⟩
  · omega
  · omega

/-- A doubling is in flight, and each of the eight chains has room for more. -/
theorem len_le_ceiling_amid_doubling : ∃ map : Map UInt64 Nat,
    map.table.exponent = 3 ∧ map.table.resize.isSome = true ∧ map.len = 27 ∧
    map.len ≤ max 8 (13 * (bucketCount map.table.exponent / 2) + bucketCount map.table.exponent) ∧
    (bucketCount map.table.exponent = 1 → map.len ≤ 8) ∧
    (1 < bucketCount map.table.exponent → 2 * map.len ≤ 15 * bucketCount map.table.exponent) := by
  obtain ⟨map, grown, exponent, growing, count⟩ := reachable_amid_doubling
  exact ⟨map, exponent, growing, count, len_le_ceiling grown⟩

end GradualMap
