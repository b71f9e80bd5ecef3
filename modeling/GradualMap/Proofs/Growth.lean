import GradualMap.Proofs.Evacuation
import GradualMap.Proofs.Invariant
import GradualMap.Proofs.Memory
import Mathlib.Data.List.Perm.Subperm
import Mathlib.Logic.Relation

/-!
Growth keeps the invariant, and the entries with it. A resize goes on in shifts, each of which keeps
both; it makes progress with every chain that is evacuated, and `finishGrowth` takes as many steps
as it needs.
-/

namespace GradualMap

open GradualMap.Action

variable {K V δ : Type}

theorem mem_of_forall₂ {α β : Type} {R : α → β → Prop} {xs : List α} {ys : List β}
    (h : List.Forall₂ R xs ys) : ∀ y ∈ ys, ∃ x ∈ xs, R x y := by
  induction h with
  | nil => simp
  | cons head _ ih =>
    rintro y (_ | ⟨_, mem⟩)
    · exact ⟨_, .head _, head⟩
    · obtain ⟨x, known, related⟩ := ih y mem
      exact ⟨x, .tail _ known, related⟩

namespace Routing

/-- The halves in use. -/
def halves (routing : Routing) : List Half :=
  if routing.sameSize then [.low] else [.low, .high]

def targets (routing : Routing) (old : Nat) : List Nat :=
  routing.halves.map (routing.target old)

variable {routing : Routing} {scheme : KeyScheme K δ}

theorem mem_halves {half : Half} : half ∈ routing.halves ↔ routing.Uses half := by
  unfold halves Uses
  cases half <;> cases routing.sameSize <;> simp

theorem nodup_targets (pos : 0 < routing.oldSize) (old : Nat) : (routing.targets old).Nodup := by
  have apart : routing.target old .low ≠ routing.target old .high :=
    target_ne pos old (by decide)
  unfold targets halves
  cases routing.sameSize <;> simp [apart]

/-- The halves together receive what was moved. -/
theorem received_perm {items : List (UInt8 × Entry K V)} {moved : List (Half × UInt8 × Entry K V)}
    (carried : List.Forall₂ (routing.Carries scheme) items moved) :
    (routing.halves.flatMap fun half => (received half moved).map (·.2)).Perm
      (items.map (·.2)) := by
  have kept : items.map (·.2) = moved.map (·.2.2) := by
    rw [← List.forall₂_eq_eq_eq, List.forall₂_map_left_iff, List.forall₂_map_right_iff]
    exact carried.imp fun _ _ h => h.1.symm
  rw [kept]
  unfold halves received
  cases same : routing.sameSize with
  | true =>
    have low : ∀ item ∈ moved, item.1 = .low := by
      intro item mem
      obtain ⟨_, _, _, routes⟩ := mem_of_forall₂ carried item mem
      cases half : item.1 with
      | low => rfl
      | high => exact absurd (routes.uses half) (by simp [same])
    have all : moved.filter (fun item => decide (item.1 = .low)) = moved :=
      List.filter_eq_self.mpr fun item mem => by simp [low item mem]
    simp [all, Function.comp_def]
  | false =>
    have split :=
      List.filter_append_perm (fun item : Half × UInt8 × Entry K V => item.1 = .low) moved
    have high : (fun item : Half × UInt8 × Entry K V => !decide (item.1 = .low)) =
        fun item => decide (item.1 = .high) := by
      funext item
      cases item.1 <;> rfl
    rw [high] at split
    simpa [Function.comp_def] using split.map (·.2.2)

end Routing

theorem mem_received {half : Half} {item : UInt8 × Entry K V}
    {moved : List (Half × UInt8 × Entry K V)} :
    item ∈ received half moved ↔ (half, item) ∈ moved := by
  simp [received, List.mem_map, List.mem_filter]

theorem length_received (moved : List (Half × UInt8 × Entry K V)) :
    (received .low moved).length + (received .high moved).length = moved.length := by
  induction moved with
  | nil => rfl
  | cons head moved ih =>
    rw [received_cons, received_cons, List.length_append, List.length_append, List.length_cons]
    cases head.1 <;> simp <;> omega

/-- An admitted entry is routed to where it is admitted, unless the scheme stalls. -/
theorem Rules.HeldBy.routes {rules : Rules K} {scheme : KeyScheme K δ} {stalls : Failure → Prop}
    (held : rules.HeldBy scheme stalls) {routing : Routing} {old : Nat} {top : UInt8} {key : K}
    (bound : old < routing.oldSize)
    (admits : rules.admits routing.seed routing.oldSize old top key) (env : KeyEnv δ) :
    Ends (routing.route scheme top key) env
      (fun routed _ => rules.admits routing.seed
        (if routing.sameSize then routing.oldSize else 2 * routing.oldSize)
        (routing.target old routed.1) routed.2 key)
      (fun failure _ => stalls failure) := by
  obtain ⟨seed, _ | _, size⟩ := routing
  · exact held.splits admits bound env
  · exact admits

theorem Rules.HeldBy.carries {rules : Rules K} {scheme : KeyScheme K δ} {stalls : Failure → Prop}
    (held : rules.HeldBy scheme stalls) (routing : Routing) {old : Nat} {item : UInt8 × Entry K V}
    {moved : Half × UInt8 × Entry K V} (bound : old < routing.oldSize) (byte : minTopHash ≤ item.1)
    (admits : rules.admits routing.seed routing.oldSize old item.1 item.2.key)
    (carries : routing.Carries scheme item moved) :
    minTopHash ≤ moved.2.1 ∧ rules.admits routing.seed
      (if routing.sameSize then routing.oldSize else 2 * routing.oldSize)
      (routing.target old moved.1) moved.2.1 moved.2.2.key := by
  obtain ⟨same, env, run⟩ := carries
  rw [same]
  have run := Prod.ext (x := routing.route scheme item.1 item.2.key env) (y := (_, _)) run rfl
  exact ⟨(Routing.route_minTopHash byte).answer run, (held.routes bound admits env).answer run⟩

/-- How a resize routes the entries of its old chains. -/
def Resize.routing (resize : Resize K V) (seed : UInt64) : Routing where
  seed := seed
  sameSize := resize.sameSize
  oldSize := resize.array.size

theorem Resize.Sound.target_lt {rules : Rules K} {seed : UInt64} {current : BucketArray K V}
    {resize : Resize K V} (sound : resize.Sound rules seed current) {old : Nat}
    (bound : old < resize.array.size) {half : Half} (uses : (resize.routing seed).Uses half) :
    (resize.routing seed).target old half < current.size := by
  have size := sound.size
  cases half with
  | low =>
    change old < current.size
    split at size <;> omega
  | high =>
    have doubling : resize.sameSize = false := uses rfl
    change old + resize.array.size < current.size
    rw [doubling, if_neg Bool.false_ne_true] at size
    omega

/-- The chains that an old chain is dealt to are fed by no other one. -/
theorem Resize.target_mod {resize : Resize K V} {old : Nat} (bound : old < resize.array.size)
    (seed : UInt64) (half : Half) :
    (resize.routing seed).target old half % resize.array.size = old := by
  cases half <;> simp [Routing.target, Resize.routing, Nat.mod_eq_of_lt bound]

theorem Resize.Waiting.target_eq {rules : Rules K} {seed : UInt64} {current : BucketArray K V}
    {resize : Resize K V} {old : Nat} (waiting : resize.Waiting rules seed current old)
    (half : Half) : current.chainAt ((resize.routing seed).target old half) = .empty := by
  cases half with
  | low => exact waiting.low
  | high => exact waiting.high

/-- Chain `old` of a resize is evacuated now, and the cursor moved past it if it stood there. -/
structure Resize.Past (old : Nat) (before after : Resize K V) : Prop where
  size : after.array.size = before.array.size
  sameSize : after.sameSize = before.sameSize
  cursor_le : before.cursor ≤ after.cursor
  vacated : after.Vacated old
  others : ∀ i, i ≠ old → after.array.chainAt i = before.array.chainAt i
  advanced : old = before.cursor → before.cursor < after.cursor ∧
    (after.Vacated after.cursor → after.cursor = before.cursor + 1 + maxCursorScan)

theorem Resize.Past.vacated_of {old i : Nat} {before after : Resize K V}
    (past : Resize.Past old before after) (vacated : before.Vacated i) : after.Vacated i := by
  by_cases same : i = old
  · exact same ▸ past.vacated
  · unfold Resize.Vacated at vacated ⊢
    rwa [past.others i same]

/-- No chain was evacuated yet. -/
structure Resize.Fresh (resize : Resize K V) : Prop where
  cursor : resize.cursor = 0
  waits : ∀ i < resize.array.size, ¬ resize.Vacated i

/-- How many chains wait to be evacuated. -/
def Resize.waiting (resize : Resize K V) : Nat :=
  (List.range resize.array.size).countP fun old => !(resize.array.chainAt old).isEvacuated

theorem countP_range_le_succ {p q : Nat → Bool} {n : Nat} (old : Nat)
    (others : ∀ i < n, i ≠ old → p i = true → q i = true) :
    (List.range n).countP p ≤ (List.range n).countP q + 1 := by
  rw [List.countP_eq_length_filter, List.countP_eq_length_filter]
  have all : (List.range n).filter p ⊆ old :: (List.range n).filter q := by
    intro i mem
    obtain ⟨inside, holds⟩ := List.mem_filter.mp mem
    by_cases same : i = old
    · exact same ▸ .head _
    · exact .tail _ (List.mem_filter.mpr ⟨inside, others i (List.mem_range.mp inside) same holds⟩)
  exact (List.subperm_of_subset (List.nodup_range.filter p) all).length_le

/-- With one chain evacuated, one fewer waits at most. -/
theorem Resize.Past.waiting_le {old : Nat} {before after : Resize K V}
    (past : Resize.Past old before after) : before.waiting ≤ after.waiting + 1 := by
  unfold waiting
  rw [past.size]
  refine countP_range_le_succ old fun i _ ne waits => ?_
  rw [past.others i ne]
  exact waits

theorem Resize.waiting_le_one {resize : Resize K V} {old : Nat}
    (others : ∀ i < resize.array.size, i ≠ old → resize.Vacated i) : resize.waiting ≤ 1 := by
  have none : (List.range resize.array.size).countP (fun _ => false) = 0 := by simp
  rw [← Nat.zero_add 1, ← none]
  refine countP_range_le_succ old fun i inside ne waits => ?_
  rw [Chain.isEvacuated_of_vacated (others i inside ne)] at waits
  exact waits

theorem Env.allocate_ends {exponent : Nat} {env : Env δ} (small : exponent < 64) :
    Ends (Env.allocate exponent) env
      (fun (array : BucketArray K V) s =>
        array = .ofExponent exponent ∧ s = env ∧ exponent < exponentLimit)
      (fun failure s => Denied env.grants failure ∧ s = env) := by
  unfold Env.allocate
  rw [if_neg (by omega), ends_bind, ends_get]
  split
  · rename_i granted
    simp only [Bool.and_eq_true, decide_eq_true_eq] at granted
    exact ⟨rfl, rfl, granted.1⟩
  · rename_i refused
    simp only [Bool.and_eq_true, decide_eq_true_eq, not_and, Bool.not_eq_true] at refused
    exact ⟨⟨exponent, rfl, refused⟩, rfl⟩

namespace Table

variable {rules : Rules K} {scheme : KeyScheme K δ} {stalls : Failure → Prop}

namespace Dealt

variable {old : Nat} {resize : Resize K V} {moved : List (Half × UInt8 × Entry K V)}
  {before after : Table K V}

theorem steady (sound : before.Sound rules) (growing : before.resize = some resize)
    (bound : old < resize.array.size)
    (waiting : resize.Waiting rules before.seed before.current old)
    (carried : List.Forall₂ ((resize.routing before.seed).Carries scheme)
      (resize.array.chainAt old).live moved)
    (dealt : Dealt (resize.routing before.seed) old (fun _ => []) moved before after) :
    Steady before after := by
  have inUse := sound.resizing resize growing
  obtain ⟨array, growing', size', others', vacated⟩ := dealt.vacated resize growing
  obtain ⟨rest, current, current'⟩ := BucketArray.entries_update_of
    ((resize.routing before.seed).targets old)
    (Routing.nodup_targets (Nat.zero_lt_of_lt bound) old)
    (fun i mem => by
      obtain ⟨half, uses, rfl⟩ := List.mem_map.mp mem
      exact inUse.target_lt bound (Routing.mem_halves.mp uses))
    dealt.size
    (fun i apart => dealt.others i fun half uses eq =>
      apart (List.mem_map.mpr ⟨half, Routing.mem_halves.mpr uses, eq.symm⟩))
  obtain ⟨rest', former, former'⟩ := BucketArray.entries_update bound size' others'
  have none : (array.chainAt old).entries = [] := Chain.entries_of_vacated vacated
  have empty : ((resize.routing before.seed).targets old).flatMap
      (fun i => (before.current.chainAt i).entries) = [] := by
    apply List.flatMap_eq_nil_iff.mpr
    intro i mem
    obtain ⟨half, _, rfl⟩ := List.mem_map.mp mem
    simp [waiting.target_eq half]
  have filled : (((resize.routing before.seed).targets old).flatMap
      (fun i => (after.current.chainAt i).entries)).Perm (resize.array.chainAt old).entries := by
    refine .trans (.of_eq ?_) (Routing.received_perm carried)
    rw [Routing.targets, List.flatMap_map, List.flatMap_def, List.flatMap_def]
    refine congrArg _ (List.map_congr_left fun half mem => ?_)
    have packed := dealt.filled half (Routing.mem_halves.mp mem)
    exact congrArg (List.map Prod.snd) packed.row.live
  rw [empty, List.nil_append] at current
  rw [none, List.nil_append] at former'
  replace current' := current'.trans (filled.append_right rest)
  refine ⟨?_, dealt.count, dealt.exponent, dealt.seed, dealt.size, ?_⟩
  · simp only [entries, Table.former, growing, growing', Option.map_some, Option.getD_some]
    apply (current'.append former').trans
    refine .trans ?_ (current.append former).symm
    rw [List.append_assoc]
    exact List.perm_append_comm_assoc _ _ _
  · have overflow := dealt.overflow
    have shares := length_received moved
    have all := carried.length_eq
    simp only [overflowOf, List.nil_append, List.length_nil, bucketSize] at overflow ⊢
    rw [current.length_eq, current'.length_eq, List.length_append, Chain.entries, List.length_map]
    omega

/-- A chain of the current array is sound, whether it was dealt to or left alone. -/
theorem chain_sound (held : rules.HeldBy scheme stalls) (sound : before.Sound rules)
    (growing : before.resize = some resize) (bound : old < resize.array.size)
    (waiting : resize.Waiting rules before.seed before.current old)
    (carried : List.Forall₂ ((resize.routing before.seed).Carries scheme)
      (resize.array.chainAt old).live moved)
    (dealt : Dealt (resize.routing before.seed) old (fun _ => []) moved before after) {i : Nat}
    (inside : i < before.current.size) :
    (after.current.chainAt i).Sound rules before.seed before.current.size i := by
  by_cases target : ∃ half, (resize.routing before.seed).Uses half ∧
      i = (resize.routing before.seed).target old half
  · obtain ⟨half, uses, rfl⟩ := target
    have packed := (dealt.filled half uses).row
    rw [List.nil_append] at packed
    have admitted : ∀ item ∈ received half moved, minTopHash ≤ item.1 ∧
        rules.admits before.seed before.current.size
          ((resize.routing before.seed).target old half) item.1 item.2.key := by
      intro item mem
      obtain ⟨source, known, carries⟩ := mem_of_forall₂ carried _ (mem_received.mp mem)
      have moves := held.carries (resize.routing before.seed) bound
        (waiting.sound.tidy.minTopHash_le known) (waiting.sound.placed source known) carries
      refine ⟨moves.1, ?_⟩
      rw [(sound.resizing resize growing).size]
      exact moves.2
    refine ⟨packed.tidy fun item mem => (admitted item mem).1, fun item mem => ?_⟩
    rw [Chain.live, packed.live] at mem
    exact (admitted item mem).2
  · rw [dealt.others i fun half uses eq => target ⟨half, uses, eq⟩]
    exact sound.chains i inside

/-- The chains dealt to are none that another old chain is going to be dealt to. -/
theorem untouched (bound : old < resize.array.size) {i : Nat} (inside : i < resize.array.size)
    (ne : i ≠ old) (waiting : resize.Waiting rules before.seed before.current i)
    (dealt : Dealt (resize.routing before.seed) old (fun _ => []) moved before after) :
    after.current.chainAt i = .empty ∧ after.current.chainAt (i + resize.array.size) = .empty := by
  constructor
  · rw [dealt.others i, waiting.low]
    intro half uses eq
    cases half <;> simp [Routing.target, Resize.routing] at eq <;> omega
  · rw [dealt.others _, waiting.high]
    intro half uses eq
    cases half <;> simp [Routing.target, Resize.routing] at eq <;> omega

theorem sound (held : rules.HeldBy scheme stalls) (sound : before.Sound rules)
    (growing : before.resize = some resize) (bound : old < resize.array.size)
    (waiting : resize.Waiting rules before.seed before.current old)
    (carried : List.Forall₂ ((resize.routing before.seed).Carries scheme)
      (resize.array.chainAt old).live moved)
    (dealt : Dealt (resize.routing before.seed) old (fun _ => []) moved before after) :
    after.Sound rules := by
  have inUse := sound.resizing resize growing
  have steady := steady sound growing bound waiting carried dealt
  obtain ⟨array, growing', size', others', vacated⟩ := dealt.vacated resize growing
  refine ⟨?_, ?_, ?_, ?_⟩
  · rw [steady.count, sound.count, steady.entries.length_eq]
  · rw [steady.size, steady.exponent]
    rcases sound.allocated with ⟨_, _, none⟩ | allocated
    · rw [growing] at none
      cases none
    · exact .inr allocated
  · intro i inside
    rw [steady.size] at inside
    rw [steady.size, steady.seed]
    exact chain_sound held sound growing bound waiting carried dealt inside
  · intro resize' growing''
    obtain rfl : { resize with array } = resize' := Option.some.inj (growing'.symm.trans growing'')
    have still (i : Nat) (before : resize.Vacated i) : Row.Vacated (array.chainAt i).slots := by
      by_cases same : i = old
      · exact same ▸ vacated
      · rw [others' i same]
        exact before
    refine ⟨?_, ?_, fun i below => still i (inUse.passed i below), ?_⟩
    · simpa [steady.size, size'] using inUse.size
    · simpa [size'] using inUse.cursor_lt
    · intro i inside
      simp only [size'] at inside
      by_cases same : i = old
      · exact .inl (same ▸ vacated)
      · rcases inUse.chains i inside with vacated' | waiting'
        · exact .inl (still i vacated')
        · obtain ⟨low, high⟩ := untouched bound inside same waiting' dealt
          refine .inr ⟨?_, low, by simpa [size'] using high⟩
          simpa [others' i same, size', steady.seed] using waiting'.sound

end Dealt

variable {table : Table K V} {env : Env δ} {resize : Resize K V} {old : Nat}

theorem skipEvacuated_spec (array : BucketArray K V) (limit cursor : Nat) :
    cursor ≤ skipEvacuated array limit cursor ∧
    skipEvacuated array limit cursor ≤ cursor + limit ∧
    (∀ i, cursor ≤ i → i < skipEvacuated array limit cursor →
      (array.chainAt i).isEvacuated = true) ∧
    (skipEvacuated array limit cursor = cursor + limit ∨
      (array.chainAt (skipEvacuated array limit cursor)).isEvacuated = false) := by
  induction limit generalizing cursor with
  | zero =>
    exact ⟨Nat.le_refl _, Nat.le_refl _, fun i le lt => absurd le (Nat.not_le.mpr lt), .inl rfl⟩
  | succ limit ih =>
    have read : (array.chains[cursor]?).any Chain.isEvacuated =
        (array.chainAt cursor).isEvacuated := by
      unfold BucketArray.chainAt
      cases array.chains[cursor]? with
      | none => rfl
      | some chain => rfl
    unfold skipEvacuated
    rw [read]
    split
    · rename_i evacuated
      obtain ⟨le, bound, passed, stop⟩ := ih (cursor + 1)
      refine ⟨by omega, by omega, fun i le' lt => ?_, ?_⟩
      · rcases Nat.eq_or_lt_of_le le' with rfl | above
        · exact evacuated
        · exact passed i above lt
      · rcases stop with stop | stop
        · exact .inl (by omega)
        · exact .inr stop
    · rename_i waits
      exact ⟨Nat.le_refl _, Nat.le_add_right _ _, fun i le lt => absurd le (Nat.not_le.mpr lt),
        .inr (Bool.eq_false_iff.mpr waits)⟩

/-- A resize with nothing left to move may be dropped. -/
theorem Sound.drop_resize (sound : table.Sound rules) (growing : table.resize = some resize)
    (vacated : ∀ i < resize.array.size, resize.Vacated i) :
    Sound rules { table with resize := none } ∧ Steady table { table with resize := none } := by
  have empty : resize.array.entries = [] :=
    BucketArray.entries_eq_nil fun i bound => Chain.entries_of_vacated (vacated i bound)
  have same : entries { table with resize := none } = table.entries := by
    simp [entries, former, growing, empty]
  refine ⟨⟨?_, ?_, sound.chains, fun _ absurd => by cases absurd⟩,
    ⟨.of_eq same, rfl, rfl, rfl, rfl, Nat.le_refl _⟩⟩
  · rw [same]
    exact sound.count
  · rcases sound.allocated with ⟨small, zero, _⟩ | allocated
    · exact .inl ⟨small, zero, rfl⟩
    · exact .inr allocated

theorem Sound.advance (sound : table.Sound rules) (growing : table.resize = some resize)
    {cursor : Nat} (lt : cursor < resize.array.size) (passed : ∀ i < cursor, resize.Vacated i) :
    Sound rules { table with resize := some { resize with cursor } } ∧
      Steady table { table with resize := some { resize with cursor } } := by
  have same : entries { table with resize := some { resize with cursor } } = table.entries := by
    simp [entries, former, growing]
  have inUse := sound.resizing resize growing
  refine ⟨⟨?_, ?_, sound.chains, ?_⟩, ⟨.of_eq same, rfl, rfl, rfl, rfl, Nat.le_refl _⟩⟩
  · rw [same]
    exact sound.count
  · rcases sound.allocated with ⟨_, _, none⟩ | allocated
    · rw [growing] at none
      cases none
    · exact .inr allocated
  · rintro _ ⟨⟩
    refine ⟨inUse.size, lt, passed, fun old bound => ?_⟩
    rcases inUse.chains old bound with vacated | waiting
    · exact .inl vacated
    · exact .inr ⟨waiting.sound, waiting.low, waiting.high⟩

/-- One step of a resize in flight, next to the events so far. -/
inductive Shift (scheme : KeyScheme K δ) : Table K V × List Event → Table K V × List Event → Prop
  /-- The entries of an old chain are dealt out. -/
  | move {table after : Table K V} {log : List Event} {resize : Resize K V} {old : Nat}
      {moved : List (Half × UInt8 × Entry K V)} (growing : table.resize = some resize)
      (bound : old < resize.array.size) (waits : ¬ resize.Vacated old)
      (carried : List.Forall₂ ((resize.routing table.seed).Carries scheme)
        (resize.array.chainAt old).live moved)
      (dealt : Dealt (resize.routing table.seed) old (fun _ => []) moved table after) :
      Shift scheme (table, log) (after, log)
  | advance {table : Table K V} {log : List Event} {resize : Resize K V} {cursor : Nat}
      (growing : table.resize = some resize) (ahead : resize.cursor < cursor)
      (bound : cursor < resize.array.size) (passed : ∀ i < cursor, resize.Vacated i) :
      Shift scheme (table, log) ({ table with resize := some { resize with cursor } }, log)
  | finish {table : Table K V} {log : List Event} {resize : Resize K V}
      (growing : table.resize = some resize) (all : ∀ i < resize.array.size, resize.Vacated i) :
      Shift scheme (table, log) ({ table with resize := none },
        .growthComplete table.exponent table.count resize.sameSize :: log)

abbrev Shifts (scheme : KeyScheme K δ) :
    Table K V × List Event → Table K V × List Event → Prop :=
  Relation.ReflTransGen (Shift scheme)

theorem Shift.sound {before after : Table K V × List Event} (shift : Shift scheme before after)
    (held : rules.HeldBy scheme stalls) (sound : before.1.Sound rules) :
    after.1.Sound rules ∧ Steady before.1 after.1 := by
  cases shift with
  | move growing bound waits carried dealt =>
    have waiting := ((sound.resizing _ growing).chains _ bound).resolve_left waits
    exact ⟨dealt.sound held sound growing bound waiting carried,
      dealt.steady sound growing bound waiting carried⟩
  | advance growing _ bound passed => exact sound.advance growing bound passed
  | finish growing all => exact sound.drop_resize growing all

theorem Shifts.sound {before after : Table K V × List Event} (shifts : Shifts scheme before after)
    (held : rules.HeldBy scheme stalls) (sound : before.1.Sound rules) :
    after.1.Sound rules ∧ Steady before.1 after.1 := by
  induction shifts with
  | refl => exact ⟨sound, .refl _⟩
  | tail _ shift ih =>
    obtain ⟨sound', steady⟩ := ih
    obtain ⟨sound'', steady'⟩ := shift.sound held sound'
    exact ⟨sound'', steady.trans steady'⟩

theorem advanceCursor_yields (scheme : KeyScheme K δ) (sound : table.Sound rules)
    (growing : table.resize = some resize) (vacated : resize.Vacated resize.cursor) (env : Env δ) :
    Yields advanceCursor (table, env) fun _ s => Shift scheme (table, env.log) (s.1, s.2.log) ∧
      (s.1 = { table with resize := none } ∧ (∀ i < resize.array.size, resize.Vacated i) ∨
        ∃ cursor, s.1 = { table with resize := some { resize with cursor } } ∧
          resize.cursor < cursor ∧
          (resize.Vacated cursor → cursor = resize.cursor + 1 + maxCursorScan)) := by
  have inUse := sound.resizing resize growing
  have lt := inUse.cursor_lt
  obtain ⟨le, bound, passed, stop⟩ := skipEvacuated_spec resize.array
    (min maxCursorScan (resize.array.size - (resize.cursor + 1))) (resize.cursor + 1)
  have before : ∀ i < skipEvacuated resize.array
      (min maxCursorScan (resize.array.size - (resize.cursor + 1))) (resize.cursor + 1),
      i < resize.array.size → resize.Vacated i := by
    intro i below inside
    rcases Nat.lt_trichotomy i resize.cursor with earlier | rfl | later
    · exact inUse.passed i earlier
    · exact vacated
    · exact (sound.isEvacuated_iff growing inside).mp (passed i later below)
  unfold advanceCursor Yields
  simp only [ends_bind, ends_read, growing]
  generalize skipEvacuated resize.array _ (resize.cursor + 1) = cursor at *
  split
  · rename_i eq
    have all : ∀ i < resize.array.size, resize.Vacated i := fun i lt => before i (eq ▸ lt) lt
    exact ⟨.finish growing all, .inl ⟨rfl, all⟩⟩
  · rename_i ne
    have inside : cursor < resize.array.size := by omega
    rw [ends_modify]
    simp only [growing, Option.map_some]
    refine ⟨.advance growing le inside fun i below => before i below (Nat.lt_trans below inside),
      .inr ⟨cursor, rfl, le, fun vacated => ?_⟩⟩
    rw [(sound.isEvacuated_iff growing inside).mpr vacated] at stop
    rcases stop with stop | stop
    · omega
    · cases stop

/-- A chain that waits is dealt out from its first slot on. -/
theorem Sound.dealing (sound : table.Sound rules) (growing : table.resize = some resize)
    (bound : old < resize.array.size) (waits : (resize.array.chainAt old).isEvacuated = false) :
    Dealing (resize.routing table.seed) rules.exact old (resize.array.chainAt old).slots 0 {}
      (fun _ => []) resize table := by
  have waiting := sound.waiting growing bound waits
  refine ⟨growing, bound, List.drop_zero .., by simp [Row.Vacated], waiting.sound.tidy, ?_, ?_⟩
  · intro half uses
    rw [waiting.target_eq half]
    exact ⟨(sound.resizing resize growing).target_lt bound uses, Chain.packed_empty⟩
  · intro half
    cases half <;> rfl

theorem moveChain_ends (held : rules.HeldBy scheme stalls) (sound : table.Sound rules)
    (growing : table.resize = some resize) (bound : old < resize.array.size)
    (waits : (resize.array.chainAt old).isEvacuated = false) (env : Env δ) :
    Ends (evacuateSlots scheme (resize.routing table.seed) old (resize.array.chainAt old).slots 0
      {}) (table, env)
      (fun _ s => Shift scheme (table, env.log) (s.1, s.2.log) ∧ ∃ array,
        s.1.resize = some { resize with array } ∧ array.size = resize.array.size ∧
        (∀ i, i ≠ old → array.chainAt i = resize.array.chainAt i) ∧
        Row.Vacated (array.chainAt old).slots)
      (fun failure _ => stalls failure) := by
  have waiting := sound.waiting growing bound waits
  have dealing := sound.dealing growing bound waits
  refine (evacuateSlots_ends (Nat.zero_lt_of_lt bound) _ dealing ?_).mono ?_ fun _ _ => id
  · intro item mem env
    exact (held.routes bound (waiting.sound.placed item mem) env).mono (fun _ _ _ => trivial)
      fun _ _ => id
  · rintro _ ⟨after, env'⟩ ⟨moved, carried, dealt, _, log⟩
    refine ⟨?_, dealt.vacated resize growing⟩
    rw [log]
    exact .move growing bound waiting.not_vacated carried dealt

/-- How a resize stands once its chain `old` was evacuated: at its end or on its way there. -/
def Passed (old : Nat) (resize : Resize K V) (after : Table K V) : Prop :=
  after.resize = none ∧ (∀ i < resize.array.size, i ≠ old → resize.Vacated i) ∨
    ∃ resize', after.resize = some resize' ∧ resize.Past old resize'

/-- How many old chains wait for their evacuation. -/
def waiting (table : Table K V) : Nat :=
  (table.resize.map Resize.waiting).getD 0

theorem waiting_of_growing (growing : table.resize = some resize) :
    table.waiting = resize.waiting := by
  simp [waiting, growing]

theorem waiting_of_idle (idle : table.resize = none) : table.waiting = 0 := by
  simp [waiting, idle]

theorem Passed.waiting_le {after : Table K V} (passed : Passed old resize after) :
    resize.waiting ≤ after.waiting + 1 := by
  rcases passed with ⟨_, others⟩ | ⟨resize', growing', past⟩
  · exact Nat.le_trans (Resize.waiting_le_one others) (Nat.le_add_left _ _)
  · rw [waiting_of_growing growing']
    exact past.waiting_le

/-- With the chain under its cursor evacuated, a resize has fewer chains left to pass. -/
theorem Passed.closer {after : Table K V} {steps : Nat}
    (passed : Passed resize.cursor resize after)
    (enough : resize.array.size - resize.cursor ≤ steps + 1) :
    ∀ resize', after.resize = some resize' → resize'.array.size - resize'.cursor ≤ steps := by
  intro resize' growing'
  rcases passed with ⟨idle, _⟩ | ⟨resize'', growing'', past⟩
  · rw [growing'] at idle
    cases idle
  · obtain rfl := Option.some.inj (growing'.symm.trans growing'')
    have moved := (past.advanced rfl).1
    have size := past.size
    omega

/-- A chain is dealt out unless that is done, and the cursor moved if it stood there. -/
theorem ends_evacuate (growing : table.resize = some resize) (bound : old < resize.array.size)
    {post : Unit → Table K V × Env δ → Prop} {fails : Failure → Table K V × Env δ → Prop} :
    Ends (evacuate scheme old) (table, env) post fails ↔
      if (resize.array.chainAt old).isEvacuated then
        Ends (if old = resize.cursor then advanceCursor else pure ()) (table, env) post fails
      else
        Ends (evacuateSlots scheme (resize.routing table.seed) old (resize.array.chainAt old).slots
          0 {}) (table, env)
          (fun _ => (Ends (if old = resize.cursor then advanceCursor else pure ()) · post fails))
          fails := by
  unfold evacuate
  simp only [ends_bind, ends_read, growing]
  rw [ends_check_ok (BucketArray.fetch_eq bound)]
  split
  · rfl
  · exact ends_bind

theorem evacuate_ends (held : rules.HeldBy scheme stalls) (sound : table.Sound rules)
    (growing : table.resize = some resize) (bound : old < resize.array.size) (env : Env δ) :
    Ends (evacuate scheme old) (table, env)
      (fun _ s => Shifts scheme (table, env.log) (s.1, s.2.log) ∧ Passed old resize s.1)
      (fun failure _ => stalls failure) := by
  have onward {after : Table K V} {env' : Env δ} {array : BucketArray K V}
      (shifts : Shifts scheme (table, env.log) (after, env'.log))
      (growing' : after.resize = some { resize with array })
      (size : array.size = resize.array.size)
      (others : ∀ i, i ≠ old → array.chainAt i = resize.array.chainAt i)
      (vacated : Row.Vacated (array.chainAt old).slots) :
      Ends (if old = resize.cursor then advanceCursor else pure ()) (after, env')
        (fun _ s => Shifts scheme (table, env.log) (s.1, s.2.log) ∧ Passed old resize s.1)
        (fun failure _ => stalls failure) := by
    split
    · rename_i here
      have sound' := (shifts.sound held sound).1
      apply (advanceCursor_yields scheme sound' growing' (here ▸ vacated) env').ends
      rintro _ ⟨_, _⟩ ⟨shift, ⟨rfl, all⟩ | ⟨cursor, rfl, lt, far⟩⟩
      · refine ⟨shifts.tail shift, .inl ⟨rfl, fun i inside ne => ?_⟩⟩
        have vacated := all i (size.symm ▸ inside)
        unfold Resize.Vacated at vacated ⊢
        rwa [others i ne] at vacated
      · exact ⟨shifts.tail shift, .inr ⟨_, rfl, size, rfl, Nat.le_of_lt lt, vacated, others,
          fun _ => ⟨lt, far⟩⟩⟩
    · rename_i elsewhere
      exact ⟨shifts, .inr ⟨_, growing', size, rfl, Nat.le_refl _, vacated, others,
        fun here => absurd here elsewhere⟩⟩
  rw [ends_evacuate growing bound]
  split
  · rename_i evacuated
    exact onward .refl growing rfl (fun _ _ => rfl)
      ((sound.isEvacuated_iff growing bound).mp evacuated)
  · rename_i waits
    apply (moveChain_ends held sound growing bound (Bool.eq_false_iff.mpr waits) env).mono ?_
      fun _ _ => id
    rintro _ ⟨after, env'⟩ ⟨shift, array, growing', size, others, vacated⟩
    exact onward (.single shift) growing' size others vacated

theorem evacuateNext_ends (held : rules.HeldBy scheme stalls) (sound : table.Sound rules)
    (env : Env δ) :
    Ends (evacuateNext scheme) (table, env)
      (fun _ s => Shifts scheme (table, env.log) (s.1, s.2.log) ∧
        (table.resize = none → s.1.resize = none) ∧
        ∀ resize, table.resize = some resize → Passed resize.cursor resize s.1)
      (fun failure _ => stalls failure) := by
  unfold evacuateNext
  rw [ends_bind, ends_read]
  cases growing : table.resize with
  | none => exact ⟨.refl, fun _ => growing, by simp⟩
  | some resize =>
    have lt := (sound.resizing resize growing).cursor_lt
    apply (evacuate_ends held sound growing lt env).mono ?_ fun _ _ => id
    rintro _ s ⟨shifts, passed⟩
    refine ⟨shifts, by simp, ?_⟩
    rintro _ ⟨⟩
    exact passed

/-- Each step moves the cursor, so as many steps as there are chains left end the resize, if every
step keeps what the next one needs. -/
theorem finishGrowthWithin_ends {keeps : Table K V → Prop}
    (inside : ∀ {table resize}, keeps table → table.resize = some resize →
      resize.cursor < resize.array.size)
    (next : ∀ {table resize} (env : Env δ), keeps table → table.resize = some resize →
      Ends (evacuate scheme resize.cursor) (table, env)
        (fun _ s => keeps s.1 ∧ Shifts scheme (table, env.log) (s.1, s.2.log) ∧
          Passed resize.cursor resize s.1)
        (fun failure _ => stalls failure)) (steps : Nat) :
    ∀ {table : Table K V} {env : Env δ}, keeps table →
      (∀ resize, table.resize = some resize → resize.array.size - resize.cursor ≤ steps) →
      Ends (finishGrowthWithin scheme steps) (table, env)
        (fun _ s => Shifts scheme (table, env.log) (s.1, s.2.log) ∧ s.1.resize = none)
        (fun failure _ => stalls failure) := by
  induction steps with
  | zero =>
    intro table env kept enough
    refine ⟨.refl, ?_⟩
    cases growing : table.resize with
    | none => rfl
    | some resize =>
      have lt := inside kept growing
      have left := enough resize growing
      omega
  | succ steps ih =>
    intro table env kept enough
    unfold finishGrowthWithin
    rw [ends_bind, ends_read]
    cases growing : table.resize with
    | none => exact ⟨.refl, growing⟩
    | some resize =>
      rw [Option.isSome_some, if_pos rfl]
      unfold evacuateNext
      rw [ends_bind, ends_bind, ends_read]
      simp only [growing]
      apply (next env kept growing).mono ?_ fun _ _ => id
      rintro _ ⟨between, env'⟩ ⟨kept', shifts, passed⟩
      have enough' := passed.closer (enough resize growing)
      exact (ih kept' enough').mono
        (fun _ _ finished => ⟨shifts.trans finished.1, finished.2⟩) fun _ _ => id

theorem finishGrowth_ends_of (keeps : Table K V → Prop)
    (inside : ∀ {table resize}, keeps table → table.resize = some resize →
      resize.cursor < resize.array.size)
    (next : ∀ {table resize} (env : Env δ), keeps table → table.resize = some resize →
      Ends (evacuate scheme resize.cursor) (table, env)
        (fun _ s => keeps s.1 ∧ Shifts scheme (table, env.log) (s.1, s.2.log) ∧
          Passed resize.cursor resize s.1)
        (fun failure _ => stalls failure)) (kept : keeps table) (env : Env δ) :
    Ends (finishGrowth scheme) (table, env)
      (fun _ s => Shifts scheme (table, env.log) (s.1, s.2.log) ∧ s.1.resize = none)
      (fun failure _ => stalls failure) := by
  unfold finishGrowth
  rw [ends_bind, ends_read]
  cases growing : table.resize with
  | none => exact ⟨.refl, growing⟩
  | some resize =>
    apply finishGrowthWithin_ends inside next _ kept
    intro resize' growing'
    obtain rfl := Option.some.inj (growing.symm.trans growing')
    omega

theorem finishGrowth_ends (held : rules.HeldBy scheme stalls) (sound : table.Sound rules)
    (env : Env δ) :
    Ends (finishGrowth scheme) (table, env)
      (fun _ s => Shifts scheme (table, env.log) (s.1, s.2.log) ∧ s.1.resize = none)
      (fun failure _ => stalls failure) := by
  refine finishGrowth_ends_of (Sound rules)
    (fun sound growing => (sound.resizing _ growing).cursor_lt) (fun env sound growing => ?_) sound
    env
  have lt := (sound.resizing _ growing).cursor_lt
  exact (evacuate_ends held sound growing lt env).mono
    (fun _ _ h => ⟨(h.1.sound held sound).1, h.1, h.2⟩) fun _ _ => id

/-- Two chains evacuated are enough for an old array of one or two chains, and for no larger one. -/
theorem passed_twice_iff {between after : Table K V} (fresh : resize.Fresh)
    (bound : old < resize.array.size) (sound : after.Sound rules)
    (passed : Passed old resize between) (ended : between.resize = none → after.resize = none)
    (passed' : ∀ resize, between.resize = some resize → Passed resize.cursor resize after) :
    after.resize = none ↔ resize.array.size ≤ 2 := by
  have cursor := fresh.cursor
  rcases passed with ⟨none, all⟩ | ⟨resize₁, growing₁, past⟩
  · refine iff_of_true (ended none) (Nat.le_of_not_lt fun large => ?_)
    by_cases first : old = 0
    · exact fresh.waits 1 (by omega) (all 1 (by omega) (by omega))
    · exact fresh.waits 0 (by omega) (all 0 (by omega) (by omega))
  · have size := past.size
    rcases passed' resize₁ growing₁ with ⟨none, all⟩ | ⟨resize₂, growing₂, past'⟩
    · refine iff_of_true none (Nat.le_of_not_lt fun large => ?_)
      obtain ⟨i, lt, ne, ne'⟩ : ∃ i < 3, i ≠ old ∧ i ≠ resize₁.cursor := by
        by_contra none
        push Not at none
        have zero := none 0
        have one := none 1
        have two := none 2
        omega
      have vacated := all i (by omega) ne'
      unfold Resize.Vacated at vacated
      rw [past.others i ne] at vacated
      exact fresh.waits i (by omega) vacated
    · apply iff_of_false (by simp [growing₂])
      intro small
      have lt := (sound.resizing resize₂ growing₂).cursor_lt
      have size' := past'.size
      obtain ⟨moved, far⟩ := past'.advanced rfl
      by_cases first : old = 0
      · have moved' := (past.advanced (by omega)).1
        omega
      · have one : old = resize₂.cursor := by omega
        have further := far (one ▸ past'.vacated_of past.vacated)
        rw [maxCursorScan] at further
        omega

/-- A table that a resize was taken forward in, for a write to current chain `index`. If the resize
is in flight still, it is the one of before, and further on. Two chains were evacuated at most. -/
structure Worked (scheme : KeyScheme K δ) (index : Nat) (before after : Table K V × List Event) :
    Prop where
  shifts : Shifts scheme before after
  settled : after.1.Settled index
  further : ∀ resize', after.1.resize = some resize' → ∃ resize, before.1.resize = some resize ∧
    resize'.array.size = resize.array.size ∧ resize'.sameSize = resize.sameSize ∧
    resize.cursor < resize'.cursor
  waiting : before.1.waiting ≤ after.1.waiting + 2

theorem Worked.of_idle {before : Table K V × List Event} (idle : before.1.resize = none)
    (index : Nat) : Worked scheme index before before where
  shifts := .refl
  settled := settled_of_idle idle index
  further resize growing := by
    rw [idle] at growing
    cases growing
  waiting := Nat.le_add_right _ _

/-- Work on a resize starts none. -/
theorem Worked.idle {index : Nat} {before after : Table K V × List Event}
    (worked : Worked scheme index before after) (idle : before.1.resize = none) :
    after.1.resize = none := by
  cases growing : after.1.resize with
  | none => rfl
  | some resize' =>
    obtain ⟨resize, growing', _⟩ := worked.further resize' growing
    rw [idle] at growing'
    cases growing'

theorem growWork_ends (held : rules.HeldBy scheme stalls) (sound : table.Sound rules) (index : Nat)
    (env : Env δ) :
    Ends (growWork scheme index) (table, env)
      (fun _ s => Worked scheme index (table, env.log) (s.1, s.2.log) ∧
        ∀ resize, table.resize = some resize → resize.Fresh →
          (s.1.resize = none ↔ resize.array.size ≤ 2))
      (fun failure _ => stalls failure) := by
  unfold growWork
  rw [ends_bind, ends_read]
  cases growing : table.resize with
  | none =>
    exact ⟨.of_idle growing index, by simp⟩
  | some resize =>
    have pos : 0 < resize.array.size :=
      Nat.zero_lt_of_lt (sound.resizing resize growing).cursor_lt
    simp only
    rw [ends_bind, ends_check_ok (BucketArray.wrap_eq pos), ends_bind]
    have bound := Nat.mod_lt index pos
    generalize old_eq : index % resize.array.size = old at *
    apply (evacuate_ends held sound growing bound env).mono ?_ fun _ _ => id
    rintro _ ⟨between, env'⟩ ⟨shifts, passed⟩
    have sound' := (shifts.sound held sound).1
    apply (evacuateNext_ends held sound' env').mono ?_ fun _ _ => id
    rintro _ ⟨after, env''⟩ ⟨shifts', ended, passed'⟩
    have sound'' := (shifts'.sound held sound').1
    -- A resize in flight at the end was in flight in between, and so passed two chains.
    have inFlight (resize₂ : Resize K V) (growing₂ : after.resize = some resize₂) :
        ∃ resize₁, resize.Past old resize₁ ∧ resize₁.Past resize₁.cursor resize₂ := by
      rcases passed with ⟨none, _⟩ | ⟨resize₁, growing₁, past⟩
      · rw [ended none] at growing₂
        cases growing₂
      · rcases passed' resize₁ growing₁ with ⟨none, _⟩ | ⟨resize₂', growing₂', past'⟩
        · rw [none] at growing₂
          cases growing₂
        · obtain rfl := Option.some.inj (growing₂.symm.trans growing₂')
          exact ⟨resize₁, past, past'⟩
    have fewer : between.waiting ≤ after.waiting + 1 := by
      cases growing₁ : between.resize with
      | none => exact Nat.le_trans (Nat.le_of_eq (waiting_of_idle growing₁)) (Nat.zero_le _)
      | some resize₁ =>
        rw [waiting_of_growing growing₁]
        exact (passed' resize₁ growing₁).waiting_le
    refine ⟨⟨shifts.trans shifts', ?_, ?_, ?_⟩, ?_⟩
    · intro resize₂ growing₂
      obtain ⟨resize₁, past, past'⟩ := inFlight resize₂ growing₂
      rw [past'.size, past.size, old_eq]
      exact past'.vacated_of past.vacated
    · intro resize₂ growing₂
      obtain ⟨resize₁, past, past'⟩ := inFlight resize₂ growing₂
      exact ⟨resize, growing, past'.size.trans past.size, past'.sameSize.trans past.sameSize,
        Nat.lt_of_le_of_lt past.cursor_le (past'.advanced rfl).1⟩
    · have one : resize.waiting ≤ between.waiting + 1 := passed.waiting_le
      simp only
      rw [waiting_of_growing growing]
      omega
    · rintro _ ⟨⟩ fresh
      exact passed_twice_iff fresh bound sound'' passed ended passed'

/-- The table after a resize was started. -/
structure Started (before after : Table K V) : Prop where
  entries : after.entries = before.entries
  count : after.count = before.count
  seed : after.seed = before.seed
  overflow : after.overflowCount = 0
  exponent : after.exponent =
    if overloaded (before.count + 1) before.exponent then before.exponent + 1 else before.exponent
  empty : after.current.entries = []
  fresh : ∃ resize, after.resize = some resize ∧ resize.Fresh ∧ resize.array = before.current

/-- What `startGrowth` makes of a table. -/
def started (table : Table K V) : Table K V :=
  let bigger := overloaded (table.count + 1) table.exponent
  let exponent := if bigger then table.exponent + 1 else table.exponent
  { table with
    exponent
    overflowCount := 0
    current := .ofExponent exponent
    resize := some { array := table.current, sameSize := !bigger, cursor := 0 } }

/-- What `startGrowth` reports. -/
def startEvent (table : Table K V) : Event :=
  .growthStarted table.exponent table.started.exponent table.count table.overflowCount
    (!overloaded (table.count + 1) table.exponent)

theorem Sound.started (sound : table.Sound rules) (idle : table.resize = none)
    (size : table.current.size = bucketCount table.exponent)
    (small : table.started.exponent < exponentLimit) : table.started.Sound rules := by
  have pos := bucketCount_pos table.exponent
  have entries : table.started.entries = table.entries := by
    simp [entries, Table.started, former, idle]
  refine ⟨?_, .inr ⟨by simp [Table.started], small⟩, fun i _ => ?_, ?_⟩
  · rw [entries]
    exact sound.count
  · rw [Table.started, BucketArray.chainAt_ofExponent]
    exact Chain.sound_empty
  · rintro _ ⟨⟩
    refine ⟨?_, size ▸ pos, fun old below => absurd below (Nat.not_lt_zero old), ?_⟩
    · unfold Table.started
      cases overloaded (table.count + 1) table.exponent <;>
        simp [size, bucketCount_succ]
    · intro old bound
      exact .inr ⟨sound.chains old bound, by simp [Table.started], by simp [Table.started]⟩

theorem started_spec (sound : table.Sound rules) (idle : table.resize = none) :
    Started table table.started where
  entries := by simp [entries, started, former, idle]
  count := rfl
  seed := rfl
  overflow := rfl
  exponent := rfl
  empty := by simp [started]
  fresh := by
    refine ⟨_, rfl, ⟨rfl, fun i bound vacated => ?_⟩, rfl⟩
    have evacuated := Chain.isEvacuated_of_vacated vacated
    rw [Chain.isEvacuated_of_tidy (sound.chains i bound).tidy] at evacuated
    cases evacuated

theorem startGrowth_ends (sound : table.Sound rules) (allocated : table.current.size ≠ 0)
    (env : Env δ) :
    Ends startGrowth (table, env)
      (fun _ s => s.1 = table.started ∧ table.started.exponent < exponentLimit ∧
        s.2.log = table.startEvent :: env.log)
      (fun failure s => s = (table, env) ∧ Denied env.grants failure) := by
  obtain ⟨_, small⟩ := sound.allocated.resolve_left fun h => allocated h.1
  have small' : table.started.exponent < 64 := by
    simp only [Table.started, exponentLimit] at small ⊢
    split <;> omega
  unfold startGrowth
  simp only [ends_bind, ends_read, ends_second]
  apply (Env.allocate_ends small').mono
  · rintro _ env ⟨rfl, rfl, granted⟩
    exact ⟨rfl, granted, rfl⟩
  · rintro failure env ⟨denied, rfl⟩
    exact ⟨rfl, denied⟩

end Table

end GradualMap
