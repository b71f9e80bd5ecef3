import GradualMap.Proofs.Progress

/-!
How many old chains one write evacuates. A resize that is taken forward once evacuates two at most.
An insert that starts a resize takes that one forward as well, and so evacuates up to two chains
more if it has completed another resize before.
-/

namespace GradualMap

open GradualMap.Action

variable {K V δ ρ : Type}

/-- The old chains that a resize starts with. -/
def Event.opened : Event → Nat
  | .growthStarted oldExponent .. => bucketCount oldExponent
  | _ => 0

/-- The old chains of all resizes that the events tell the start of. -/
def opened : List Event → Nat
  | [] => 0
  | event :: log => event.opened + opened log

theorem opened_cons (event : Event) (log : List Event) :
    opened (event :: log) = event.opened + opened log :=
  rfl

theorem opened_append_of_quiet {news : List Event} (quiet : ∀ event ∈ news, event.marks = false)
    (log : List Event) : opened (news ++ log) = opened log := by
  induction news with
  | nil => rfl
  | cons event news ih =>
    have none : event.opened = 0 := by
      have unmarked := quiet event (.head _)
      cases event with
      | growthStarted => cases unmarked
      | _ => rfl
    rw [List.cons_append, opened_cons, none, Nat.zero_add]
    exact ih fun other mem => quiet other (.tail _ mem)

theorem countP_range_eq_succ {p q : Nat → Bool} {n old : Nat} (bound : old < n)
    (here : p old = true) (gone : q old = false) (others : ∀ i, i ≠ old → p i = q i) :
    (List.range n).countP p = (List.range n).countP q + 1 := by
  induction n with
  | zero => exact absurd bound (Nat.not_lt_zero old)
  | succ n ih =>
    simp only [List.range_succ, List.countP_append, List.countP_singleton]
    by_cases last : n = old
    · have before : (List.range n).countP p = (List.range n).countP q := by
        refine List.countP_congr fun i mem => ?_
        have ne : i ≠ old := by
          have := List.mem_range.mp mem
          omega
        rw [others i ne]
      rw [before, last, here, gone]
      rfl
    · rw [ih (by omega), others n last]
      omega

/-- With one chain evacuated that waited, one fewer waits. -/
theorem Resize.waiting_eq_succ {before after : Resize K V} {old : Nat}
    (size : after.array.size = before.array.size) (bound : old < before.array.size)
    (waits : (before.array.chainAt old).isEvacuated = false)
    (evacuated : (after.array.chainAt old).isEvacuated = true)
    (others : ∀ i, i ≠ old → after.array.chainAt i = before.array.chainAt i) :
    before.waiting = after.waiting + 1 := by
  unfold waiting
  rw [size]
  apply countP_range_eq_succ bound
  · rw [waits]
    rfl
  · rw [evacuated]
    rfl
  · intro i ne
    rw [others i ne]

theorem Resize.waiting_eq_zero {resize : Resize K V}
    (all : ∀ i < resize.array.size, resize.Vacated i) : resize.waiting = 0 := by
  refine List.countP_eq_zero.mpr fun i mem => ?_
  rw [Chain.isEvacuated_of_vacated (all i (List.mem_range.mp mem))]
  exact Bool.false_ne_true

theorem Resize.waiting_eq_size {resize : Resize K V}
    (waits : ∀ i < resize.array.size, (resize.array.chainAt i).isEvacuated = false) :
    resize.waiting = resize.array.size := by
  unfold waiting
  rw [List.countP_eq_length.mpr, List.length_range]
  intro i mem
  rw [waits i (List.mem_range.mp mem)]
  rfl

namespace Table

variable {scheme : KeyScheme K δ} {table : Table K V}
  {start before between after : Table K V × List Event} {n m : Nat}

/-- What becomes of the old chains of a resize: one that waited is evacuated, or none. -/
inductive Evacuates : Nat → Table K V → Table K V → Prop
  | one {before after : Table K V} {resize resize' : Resize K V} {old : Nat}
      (growing : before.resize = some resize) (growing' : after.resize = some resize')
      (size : resize'.array.size = resize.array.size) (bound : old < resize.array.size)
      (waits : ¬ resize.Vacated old) (vacated : resize'.Vacated old)
      (others : ∀ i, i ≠ old → resize'.array.chainAt i = resize.array.chainAt i) :
      Evacuates 1 before after
  | onward {before after : Table K V} {resize resize' : Resize K V}
      (growing : before.resize = some resize) (growing' : after.resize = some resize')
      (same : resize'.array = resize.array) : Evacuates 0 before after
  | ended {before after : Table K V} {resize : Resize K V}
      (growing : before.resize = some resize) (idle : after.resize = none)
      (all : ∀ i < resize.array.size, resize.Vacated i) : Evacuates 0 before after

/-- A table at work: from the start on, `n` old chains were evacuated in all its resizes. -/
inductive Hauls (scheme : KeyScheme K δ) (start : Table K V × List Event) :
    Nat → Table K V × List Event → Prop
  | idle : Hauls scheme start 0 start
  | lull {n : Nat} {between after : Table K V × List Event} (hauls : Hauls scheme start n between)
      (lull : Lull between after) : Hauls scheme start n after
  | shift {n m : Nat} {between after : Table K V × List Event} (hauls : Hauls scheme start n between)
      (sound : between.1.Sound Rules.any) (shift : Shift scheme between after)
      (evacuates : Evacuates m between.1 after.1) : Hauls scheme start (n + m) after
  | grow {n : Nat} {between : Table K V × List Event} (hauls : Hauls scheme start n between)
      (sound : between.1.Sound Rules.any) (allocated : between.1.current.size ≠ 0)
      (idle : between.1.resize = none) :
      Hauls scheme start n (between.1.started, between.1.startEvent :: between.2)

/-- The same number from the two ends: of the chains that waited, and those of the resizes started
since, all but `n` wait still. -/
def Moves (n : Nat) (before after : Table K V × List Event) : Prop :=
  before.1.waiting + opened after.2 = after.1.waiting + opened before.2 + n

instance : Decidable (Moves n before after) :=
  inferInstanceAs (Decidable (_ = _))

theorem Evacuates.waiting_eq {before after : Table K V} (evacuates : Evacuates n before after)
    (sound : before.Sound Rules.any) : before.waiting = after.waiting + n := by
  cases evacuates with
  | one growing growing' size bound waits vacated others =>
    have waits' := Bool.eq_false_iff.mpr (waits ∘ (sound.isEvacuated_iff growing bound).mp)
    rw [waiting_of_growing growing, waiting_of_growing growing']
    exact Resize.waiting_eq_succ size bound waits' (Chain.isEvacuated_of_vacated vacated) others
  | onward growing growing' same =>
    rw [waiting_of_growing growing, waiting_of_growing growing', Resize.waiting, Resize.waiting, same]
    rfl
  | ended growing idle all =>
    rw [waiting_of_growing growing, waiting_of_idle idle, Resize.waiting_eq_zero all]

theorem Shift.evacuates (shift : Shift scheme before after) : ∃ n, Evacuates n before.1 after.1 := by
  cases shift with
  | @move _ _ _ resize old _ growing bound waits carried dealt =>
    obtain ⟨array, growing', size, others, vacated⟩ := dealt.vacated resize growing
    exact ⟨1, .one growing growing' size bound waits vacated others⟩
  | advance growing ahead bound passed => exact ⟨0, .onward growing rfl rfl⟩
  | finish growing all => exact ⟨0, .ended growing rfl all⟩

theorem Shift.opened_eq (shift : Shift scheme before after) : opened after.2 = opened before.2 := by
  cases shift with
  | move => rfl
  | advance => rfl
  | finish => exact (opened_cons _ _).trans (Nat.zero_add _)

theorem Lull.waiting_eq (lull : Lull before after) : after.1.waiting = before.1.waiting := by
  unfold waiting
  rw [lull.resize]

theorem Lull.opened_eq (lull : Lull before after) : opened after.2 = opened before.2 := by
  obtain ⟨news, told, quiet⟩ := lull.news
  rw [told, opened_append_of_quiet quiet]

/-- A resize that is started puts up every chain there is. -/
theorem Sound.waiting_started (sound : table.Sound Rules.any) (allocated : table.current.size ≠ 0) :
    table.started.waiting = table.startEvent.opened := by
  have waits : ∀ i < table.current.size, (table.current.chainAt i).isEvacuated = false :=
    fun i bound => Chain.isEvacuated_of_tidy (sound.chains i bound).tidy
  have all : table.started.waiting = table.current.size :=
    (waiting_of_growing rfl).trans (Resize.waiting_eq_size waits)
  exact all.trans (sound.size_eq allocated)

/-- There is one number only. -/
theorem Hauls.moves (hauls : Hauls scheme start n after) : Moves n start after := by
  unfold Moves
  induction hauls with
  | idle => rfl
  | lull _ lull ih =>
    rw [lull.waiting_eq, lull.opened_eq]
    exact ih
  | shift _ sound shift evacuates ih =>
    have fewer := evacuates.waiting_eq sound
    have same := shift.opened_eq
    omega
  | grow _ sound allocated idle ih =>
    have all := sound.waiting_started allocated
    rw [waiting_of_idle idle] at ih
    rw [opened_cons, all]
    omega

/-- Shifts evacuate the chains that wait no more. -/
theorem Shifts.hauls (shifts : Shifts scheme before after) (sound : before.1.Sound Rules.any)
    (hauls : Hauls scheme start n before) :
    ∃ m, Hauls scheme start (n + m) after ∧ before.1.waiting = after.1.waiting + m := by
  induction shifts with
  | refl => exact ⟨0, hauls, rfl⟩
  | tail shifts' shift ih =>
    obtain ⟨m, hauls', waiting⟩ := ih
    have sound' := (Shifts.sound shifts' (Rules.any_heldBy scheme) sound).1
    obtain ⟨k, evacuates⟩ := shift.evacuates
    have fewer := evacuates.waiting_eq sound'
    exact ⟨m + k, Nat.add_assoc n m k ▸ hauls'.shift sound' shift evacuates, by omega⟩

/-- Two chains at most, and no more than wait. -/
theorem Stint.hauls (stint : Stint scheme before after) (hauls : Hauls scheme start n before) :
    ∃ m ≤ 2, m ≤ before.1.waiting ∧ Hauls scheme start (n + m) after := by
  cases stint with
  | worked ahead sound worked rest =>
    obtain ⟨m, hauls', waiting⟩ := worked.shifts.hauls sound (hauls.lull ahead)
    have few := worked.waiting
    have still := ahead.waiting_eq
    exact ⟨m, by omega, by omega, hauls'.lull rest⟩

/-- A resize in flight was completed, and another one started. -/
def Restarted (before after : Table K V × List Event) : Prop :=
  ∃ resize event log, before.1.resize = some resize ∧
    Closed (Event.Completes resize.sameSize) before.2 log ∧ event.starts = true ∧
    event :: log <:+ after.2

/-- Four chains at most, and more than two only for an insert that completes a resize and starts
another one. -/
theorem Effort.hauls {inserts : Bool} (effort : Effort scheme inserts before after) :
    ∃ n ≤ 4, Hauls scheme before n after ∧
      (2 < n → inserts = true ∧ Restarted before after) := by
  cases effort with
  | once stint =>
    obtain ⟨n, few, _, hauls⟩ := stint.hauls .idle
    exact ⟨0 + n, by omega, hauls, fun many => by omega⟩
  | @twice between starts stint sound allocated idle again =>
    obtain ⟨n, few, waited, hauls⟩ := stint.hauls .idle
    obtain ⟨m, few', _, hauls'⟩ := again.hauls (hauls.grow sound allocated idle)
    refine ⟨0 + n + m, by omega, hauls', fun many => ⟨starts, ?_⟩⟩
    cases growing : before.1.resize with
    | none =>
      rw [waiting_of_idle growing] at waited
      omega
    | some resize =>
      cases stint.fares growing with
      | onward growing' =>
        rw [idle] at growing'
        cases growing'
      | ended closed => exact ⟨resize, _, between.2, growing, closed, rfl, again.grows⟩

end Table

/-- Whatever calls a map has seen, a write evacuates four old chains at most, counted over all
resizes. It evacuates more than two only if it completes one resize and starts another. -/
theorem writes_move_few {scheme : KeyScheme K δ} {map : Map K V} (reachable : Reachable scheme map)
    {call : Call K V ρ} (writes : call.writes = true) (env : Env δ) (own : ρ) :
    Leads (call.attempt scheme) ((map, env), own) fun s =>
      ∃ n ≤ 4, Table.Hauls scheme (map.table, env.log) n (s.1.1.table, s.1.2.log) ∧
        (2 < n → call.inserts = true ∧
          Table.Restarted (map.table, env.log) (s.1.1.table, s.1.2.log)) := by
  obtain ⟨sound, free⟩ := reachable.intact
  refine (call.attempt_attends sound reachable.estimated.roomy free writes).mono fun s attended => ?_
  cases attended with
  | effort _ effort => exact effort.hauls
  | still _ same =>
    rw [same]
    exact ⟨0, Nat.zero_le 4, .idle, fun many => absurd many (Nat.not_lt_zero 2)⟩

/-- A removal amid a doubling. -/
theorem writes_move_few_amid_doubling : ∃ map : Map UInt64 Nat, map.table.resize.isSome = true ∧
    let after := (Call.attempt (Key.word {}) (.remove 99) ((map, .ample {}), ())).2.1
    ∃ n ≤ 2, Table.Hauls (Key.word {}) (map.table, []) n (after.1.table, after.2.log) := by
  have made : Reachable (V := Nat) (Key.word {}) _ := .made .empty (.ample {}) rfl
  let remove : Call UInt64 Nat Unit := .remove 99
  obtain ⟨map, grown, growing, answered⟩ : ∃ map : Map UInt64 Nat,
      Reachable (Key.word {}) map ∧ map.table.resize.isSome = true ∧
      (remove.attempt (Key.word {}) ((map, .ample {}), ())).1.toOption.isSome = true :=
    ⟨_, made.after (.extend ((List.range 27).map fun n => (n.toUInt64, n))) (.ample {}) ()
      (by decide +kernel), by decide +kernel⟩
  have few := writes_move_few grown (rfl : remove.writes = true) (.ample {}) ()
  obtain ⟨n, _, hauls, only⟩ := few.after rfl (calm_of_isSome answered)
  have le : n ≤ 2 := Nat.le_of_not_lt fun many => Bool.false_ne_true (only many).1
  exact ⟨map, growing, n, le, hauls⟩

/-- Calls that bring about a resize of the same size with two of its four chains left, in a table
that must be doubled for the next new entry. -/
def crowding : List (Call UInt64 Nat Unit) :=
  [.extend ((List.range 26).map fun n => ((4 * n).toUInt64, n))] ++
  ((List.range 18).map fun n => .remove (32 + 4 * n).toUInt64) ++
  [.extend ((List.range 8).map fun n => ((2 + 4 * n).toUInt64, n)),
    .extend ((List.range 9).map fun n => ((1 + 4 * n).toUInt64, n)), .insert 34 34]

/-- One insert more completes that resize and starts the doubling, with two chains evacuated in
each. -/
theorem insert_moves_four : ∃ map : Map UInt64 Nat, Reachable (Key.Masked.scheme {}) map ∧
    let run := Call.attempt (Key.Masked.scheme {}) (.insert 37 37) ((map, .lenient {}), ())
    let after := (run.2.1.1.table, run.2.1.2.log)
    run.1.toOption.isSome = true ∧ Table.Moves 4 (map.table, []) after ∧
      ∀ n, Table.Hauls (Key.Masked.scheme {}) (map.table, []) n after → n = 4 := by
  have made : Reachable (V := Nat) (Key.Masked.scheme {}) _ := .made .empty (.lenient {}) rfl
  let insert : Call UInt64 Nat Unit := .insert 37 37
  obtain ⟨map, grown, answered, four⟩ : ∃ map : Map UInt64 Nat,
      Reachable (Key.Masked.scheme {}) map ∧
      (insert.attempt (Key.Masked.scheme {}) ((map, .lenient {}), ())).1.toOption.isSome = true ∧
      Table.Moves 4 (map.table, [])
        ((insert.attempt (Key.Masked.scheme {}) ((map, .lenient {}), ())).2.1.1.table,
          (insert.attempt (Key.Masked.scheme {}) ((map, .lenient {}), ())).2.1.2.log) :=
    ⟨_, made.afterAll crowding (.lenient {}) () (by decide +kernel), by decide +kernel⟩
  refine ⟨map, grown, answered, four, fun n hauls => ?_⟩
  have moves := hauls.moves
  unfold Table.Moves at four moves
  exact Nat.add_left_cancel (moves.symm.trans four)

end GradualMap
