import GradualMap.Proofs.Outcome
import GradualMap.Traversal.Sweep

/-!
What an operation leaves as it is. None changes what memory there is: an array that is refused at
some time would have been refused at any other. Nor does any but the start of a resize report one.
-/

namespace GradualMap

namespace Action

variable {σ τ α β γ : Type} {view : σ → γ} {act : Action σ α}

/-- Whatever comes of the operation, the view of the state is the same after it. -/
def Leaves (view : σ → γ) (act : Action σ α) : Prop :=
  ∀ s, view (act s).2 = view s

theorem Ends.leaving {s : σ} {post : α → σ → Prop} {fails : Failure → σ → Prop}
    (h : act.Ends s post fails) (leaves : act.Leaves view) :
    act.Ends s (fun a after => post a after ∧ view after = view s)
      (fun failure after => fails failure after ∧ view after = view s) := by
  have same := leaves s
  unfold Ends at *
  generalize act s = run at *
  rcases run with ⟨_ | _, _⟩ <;> exact ⟨h, same⟩

theorem leaves_pure {a : α} : Leaves view (pure a : Action σ α) :=
  fun _ => rfl

theorem leaves_throw {failure : Failure} : Leaves view (throw failure : Action σ α) :=
  fun _ => rfl

theorem leaves_abort {cause : Abort} : Leaves view (abort cause : Action σ α) :=
  fun _ => rfl

theorem leaves_check {e : Except Abort α} : Leaves view (check e : Action σ α) := by
  cases e <;> exact fun _ => rfl

theorem Leaves.bind {f : α → Action σ β} (leaves : act.Leaves view)
    (later : ∀ a, (f a).Leaves view) : Leaves view (act >>= f) := by
  intro s
  have same := leaves s
  rw [bind_apply]
  generalize act s = run at *
  rcases run with ⟨_ | a, after⟩
  · exact same
  · exact (later a after).trans same

theorem Leaves.map {f : α → β} (leaves : act.Leaves view) : Leaves view (f <$> act) :=
  leaves.bind (f := fun a => pure (f a)) fun _ => leaves_pure

theorem Leaves.comp {γ' : Type} (leaves : act.Leaves view) (g : γ → γ') :
    Leaves (fun s => g (view s)) act :=
  fun s => congrArg g (leaves s)

theorem Leaves.forM {f : τ → Action σ Unit} (leaves : ∀ item, (f item).Leaves view)
    (items : List τ) : Leaves view (items.forM f) := by
  induction items with
  | nil => exact leaves_pure
  | cons item items ih => exact (leaves item).bind fun _ => ih

theorem Leaves.first (leaves : act.Leaves view) :
    Leaves (fun s : σ × τ => view s.1) act.first :=
  fun s => leaves s.1

theorem leaves_second {act : Action τ α} : Leaves (fun s : σ × τ => view s.1) act.second :=
  fun _ => rfl

theorem Leaves.second {act : Action τ α} {view : τ → γ} (leaves : act.Leaves view) :
    Leaves (fun s : σ × τ => view s.2) act.second :=
  fun s => leaves s.2

theorem Leaves.ensuring {last : σ → σ} (leaves : act.Leaves view)
    (same : ∀ s, view (last s) = view s) : Leaves view (act.ensuring last) :=
  fun s => (same _).trans (leaves s)

theorem Leaves.orAbort (leaves : act.Leaves view) : Leaves view act.orAbort :=
  leaves

end Action

open GradualMap.Action

variable {K V δ ρ α γ : Type} {scheme : KeyScheme K δ}

/-- The event tells of the start of a resize. -/
def Event.starts : Event → Bool
  | .growthStarted .. => true
  | _ => false

/-- A view of the surroundings that the start of a resize alone may change. -/
class Env.Aloof (view : Env δ → γ) : Prop where
  asked : ∀ env keys, view { env with keys } = view env
  told : ∀ env event, event.starts = false → view { env with log := event :: env.log } = view env

instance : Env.Aloof (Env.grants : Env δ → Nat → Bool) where
  asked _ _ := rfl
  told _ _ _ := rfl

/-- The same view next to what is worked on. -/
abbrev Env.around {σ : Type} (view : Env δ → γ) (s : σ × Env δ) : γ :=
  view s.2

variable {view : Env δ → γ} [Env.Aloof view]

/-- There is no memory for an array that is asked for, or it is too large for any memory. -/
def Denied (grants : Nat → Bool) (failure : Failure) : Prop :=
  ∃ exponent, failure = .fault (.noMemory (bucketCount exponent)) ∧
    (exponent < exponentLimit → grants exponent = false)

namespace Env

theorem leaves_onKeys {act : Action (KeyEnv δ) α} : Leaves view (onKeys act) :=
  fun env => Aloof.asked env _

omit [Aloof view] in
theorem leaves_allocate {exponent : Nat} :
    Leaves view (allocate exponent : Action (Env δ) (BucketArray K V)) := by
  unfold allocate
  split
  · exact leaves_abort
  · have got : Leaves view (get : Action (Env δ) (Env δ)) := fun _ => rfl
    apply got.bind
    intro env
    split
    · exact leaves_pure
    · exact leaves_throw

end Env

namespace Table

/-- The memory that a table is worked on with. -/
abbrev memory (s : Table K V × Env δ) : Nat → Bool :=
  Env.around Env.grants s

section

omit [Env.Aloof view]

theorem leaves_read : Leaves (Env.around view) (read : TableAction K V δ (Table K V)) :=
  fun _ => rfl

theorem leaves_modify {f : Table K V → Table K V} :
    Leaves (Env.around view) (modify f : TableAction K V δ Unit) :=
  fun _ => rfl

end

theorem leaves_record {event : Event} (quiet : event.starts = false) :
    Leaves (Env.around view) (record event : TableAction K V δ Unit) :=
  fun s => Env.Aloof.told s.2 event quiet

theorem leaves_onKeys {act : Action (KeyEnv δ) α} :
    Leaves (Env.around view) (onKeys act : TableAction K V δ α) :=
  Env.leaves_onKeys.second

omit [Env.Aloof view] in
theorem leaves_updateEntry {pos : Position} {f : Entry K V → Entry K V} :
    Leaves (Env.around view) (updateEntry pos f : TableAction K V δ (Entry K V)) := by
  unfold updateEntry
  refine leaves_read.bind fun table => leaves_check.bind fun slot => ?_
  split
  · exact leaves_abort
  · split
    · exact leaves_modify.bind fun _ => leaves_pure
    · exact leaves_modify.bind fun _ => leaves_pure

theorem leaves_countOverflow :
    Leaves (Env.around view) (countOverflow : TableAction K V δ Unit) := by
  unfold countOverflow
  apply leaves_read.bind
  intro table
  have counted (counts : Bool) : Leaves (Env.around view)
      (if counts then modify fun table : Table K V =>
        { table with overflowCount := min (table.overflowCount + 1) maxOverflowCount }
      else pure () : TableAction K V δ Unit) := by
    split
    · exact leaves_modify
    · exact leaves_pure
  simp only
  split
  · exact leaves_pure.bind counted
  · exact leaves_onKeys.map.bind counted

theorem leaves_linkOverflow {index : Nat} :
    Leaves (Env.around view) (linkOverflow index : TableAction K V δ Unit) :=
  leaves_modify.bind fun _ => leaves_countOverflow.bind fun _ => leaves_read.bind fun _ =>
    leaves_record rfl

theorem leaves_startGrowth : Leaves memory (startGrowth : TableAction K V δ Unit) := by
  have told (event : Event) : Leaves memory (record event : TableAction K V δ Unit) := fun _ => rfl
  exact leaves_read.bind fun _ => Env.leaves_allocate.second.bind fun _ => (told _).bind fun _ =>
    leaves_modify

theorem leaves_place {index next : Nat} {slot : Slot K V} :
    Leaves (Env.around view) (place index next slot : TableAction K V δ Unit) := by
  unfold place
  refine leaves_read.bind fun table => leaves_check.bind fun chain => ?_
  split
  · exact leaves_modify.bind fun _ => leaves_countOverflow
  · split
    · exact leaves_abort
    · exact leaves_modify

theorem leaves_evacuateSlots {routing : Routing} {old : Nat} (row : List (Slot K V)) :
    ∀ {offset : Nat} {filled : Filled},
      Leaves (Env.around view) (evacuateSlots scheme routing old row offset filled) := by
  induction row with
  | nil => exact leaves_pure
  | cons slot rest ih =>
    intro offset filled
    unfold evacuateSlots
    split
    · exact leaves_modify.bind fun _ => ih
    · exact leaves_modify.bind fun _ => ih
    · exact leaves_modify.bind fun _ => leaves_onKeys.bind fun _ => leaves_modify.bind fun _ =>
        leaves_place.bind fun _ => ih
    · exact leaves_abort

theorem leaves_advanceCursor :
    Leaves (Env.around view) (advanceCursor : TableAction K V δ Unit) := by
  unfold advanceCursor
  apply leaves_read.bind
  intro table
  split
  · exact leaves_pure
  · simp only
    split
    · exact leaves_read.bind fun _ => (leaves_record rfl).bind fun _ => leaves_modify
    · exact leaves_modify

theorem leaves_evacuate {old : Nat} :
    Leaves (Env.around view) (evacuate scheme old : TableAction K V δ Unit) := by
  unfold evacuate
  apply leaves_read.bind
  intro table
  simp only
  split
  · exact leaves_pure
  · rename_i array sameSize cursor _
    have ended : Leaves (Env.around view)
        (if old = cursor then advanceCursor else pure () : TableAction K V δ Unit) := by
      split
      · exact leaves_advanceCursor
      · exact leaves_pure
    apply leaves_check.bind
    intro chain
    split
    · exact ended
    · exact (leaves_evacuateSlots _).bind fun _ => ended

theorem leaves_evacuateNext :
    Leaves (Env.around view) (evacuateNext scheme : TableAction K V δ Unit) := by
  unfold evacuateNext
  apply leaves_read.bind
  intro table
  split
  · exact leaves_pure
  · exact leaves_evacuate

theorem leaves_growWork {index : Nat} :
    Leaves (Env.around view) (growWork scheme index : TableAction K V δ Unit) := by
  unfold growWork
  apply leaves_read.bind
  intro table
  split
  · exact leaves_pure
  · exact leaves_check.bind fun _ => leaves_evacuate.bind fun _ => leaves_evacuateNext

theorem leaves_finishGrowth :
    Leaves (Env.around view) (finishGrowth scheme : TableAction K V δ Unit) := by
  have within (steps : Nat) :
      Leaves (Env.around view) (finishGrowthWithin scheme steps : TableAction K V δ Unit) := by
    induction steps with
    | zero => exact leaves_pure
    | succ steps ih =>
      unfold finishGrowthWithin
      apply leaves_read.bind
      intro table
      split
      · exact leaves_evacuateNext.bind fun _ => ih
      · exact leaves_pure
  unfold finishGrowth
  apply leaves_read.bind
  intro table
  split
  · exact leaves_pure
  · exact within _

omit [Env.Aloof view] in
theorem leaves_reserve : Leaves (Env.around view) (reserve : TableAction K V δ Unit) := by
  unfold reserve
  apply leaves_read.bind
  intro table
  simp only
  split
  · exact leaves_pure
  · exact Env.leaves_allocate.second.bind fun _ => leaves_modify

theorem leaves_claim {key : K} {hash : UInt64} :
    Leaves memory (claim scheme key hash : TableAction K V δ Claim) := by
  have within (rounds : Nat) :
      Leaves memory (claimWithin scheme key hash rounds : TableAction K V δ Claim) := by
    induction rounds with
    | zero => exact leaves_abort
    | succ rounds ih =>
      unfold claimWithin
      refine leaves_read.bind fun table => leaves_growWork.bind fun _ => leaves_read.bind fun _ =>
        leaves_check.bind fun chain => leaves_onKeys.bind fun answer => ?_
      cases answer with
      | found offset => exact leaves_pure
      | missing free =>
        apply leaves_read.bind
        intro table
        split
        · exact leaves_startGrowth.bind fun _ => ih
        · cases free with
          | some offset => exact leaves_pure
          | none => exact leaves_linkOverflow.bind fun _ => leaves_pure
  exact leaves_reserve.bind fun _ => within _

omit [Env.Aloof view] in
theorem leaves_fill {index offset : Nat} {hash : UInt64} {entry : Entry K V} :
    Leaves (Env.around view) (fill index offset hash entry : TableAction K V δ Unit) :=
  leaves_modify.bind fun _ => leaves_modify

/-- What taking out entries leaves alone: the surroundings, the chains and their overflow buckets,
and the estimate of these. -/
abbrev bedding (s : Table K V × Env δ) : Env δ × Nat × Nat × Nat :=
  (s.2, s.1.current.size, s.1.current.linked, s.1.overflowCount)

theorem leaves_countDown : Leaves bedding (countDown : TableAction K V δ Unit) := by
  have read : Leaves bedding (read : TableAction K V δ (Table K V)) := fun _ => rfl
  have down : Leaves bedding (modify fun table => { table with count := table.count - 1 } :
      TableAction K V δ Unit) := fun _ => rfl
  unfold countDown
  apply read.bind
  intro table
  split
  · exact leaves_abort.bind fun _ => down
  · exact down

theorem leaves_reseed : Leaves (Env.around view) (reseed : TableAction K V δ Unit) :=
  leaves_onKeys.bind fun _ => leaves_modify

theorem leaves_delete {key : K} {hash : UInt64} :
    Leaves (Env.around view) (delete scheme key hash : TableAction K V δ (Option (K × V))) := by
  unfold delete
  apply leaves_read.bind
  intro table
  simp only
  split
  · exact leaves_pure
  · refine leaves_growWork.bind fun _ => leaves_read.bind fun _ => leaves_check.bind fun chain =>
      leaves_onKeys.bind fun answer => ?_
    cases answer with
    | missing free => exact leaves_pure
    | found offset =>
      refine leaves_read.bind fun _ => leaves_check.bind fun entry => leaves_modify.bind fun _ =>
        leaves_modify.bind fun _ => (leaves_countDown.comp (view ·.1)).bind fun _ =>
          leaves_read.bind fun _ => ?_
      split
      · exact leaves_reseed.bind fun _ => (leaves_record rfl).bind fun _ => leaves_pure
      · exact leaves_pure

theorem leaves_clear : Leaves (Env.around view) (clear : TableAction K V δ Unit) := by
  unfold clear
  apply leaves_read.bind
  intro table
  split
  · exact leaves_pure
  · exact leaves_modify.bind fun _ => leaves_reseed.bind fun _ => leaves_read.bind fun _ =>
      leaves_record rfl

theorem leaves_retainSlots {f : K → V → StateM ρ (V × Except String Bool)} {index : Nat}
    (row : List (Slot K V)) : ∀ {offset : Nat},
      Leaves (fun s : (Table K V × Env δ) × ρ => bedding s.1) (retainSlots f index row offset) := by
  have written {offset : Nat} {slot : Slot K V} : Leaves bedding
      (setCurrent index offset slot : TableAction K V δ Unit) :=
    fun _ => by simp [setCurrent, modify]
  induction row with
  | nil => exact leaves_pure
  | cons slot rest ih =>
    intro offset
    unfold retainSlots
    split
    · exact leaves_pure.bind fun _ => ih
    · refine leaves_second.bind fun answer => written.first.bind fun _ => ?_
      split
      · exact leaves_pure.bind fun _ => ih
      · exact written.first.bind fun _ => leaves_countDown.first.bind fun _ => ih
      · exact leaves_abort.bind fun _ => ih

theorem leaves_retainChains {f : K → V → StateM ρ (V × Except String Bool)} (indices : List Nat) :
    Leaves (fun s : (Table K V × Env δ) × ρ => bedding s.1) (indices.forM (retainChain f)) := by
  have read : Leaves bedding (read : TableAction K V δ (Table K V)) := fun _ => rfl
  have settled (index : Nat) : Leaves bedding (modify fun table =>
      { table with current := table.current.modify index Chain.settleEnd } :
      TableAction K V δ Unit) := fun _ => by simp [modify]
  exact .forM (fun index => read.first.bind fun _ => leaves_check.bind fun chain =>
    (leaves_retainSlots _).bind fun _ => (settled index).first) indices

theorem leaves_retain {f : K → V → StateM ρ (V × Except String Bool)} :
    Leaves (fun s : (Table K V × Env δ) × ρ => Env.around view s.1) (retain scheme f) := by
  unfold retain
  apply leaves_read.first.bind
  intro table
  split
  · exact leaves_pure
  · refine leaves_finishGrowth.first.bind fun _ => leaves_read.first.bind fun table =>
      ((leaves_retainChains _).comp (view ·.1)).bind fun _ => leaves_read.first.bind fun table => ?_
    split
    · exact leaves_reseed.first
    · exact leaves_pure

end Table

namespace Map

/-- The memory that a map is worked on with. -/
abbrev memory (s : Map K V × Env δ) : Nat → Bool :=
  Env.around Env.grants s

omit [Env.Aloof view] in
theorem leaves_read : Leaves (Env.around view) (read : MapAction K V δ (Map K V)) :=
  fun _ => rfl

omit [Env.Aloof view] in
theorem leaves_onTable {act : TableAction K V δ α} (leaves : act.Leaves (Env.around view)) :
    Leaves (Env.around view) (onTable act) :=
  fun s => leaves (s.1.table, s.2)

theorem leaves_onKeys {act : Action (KeyEnv δ) α} :
    Leaves (Env.around view) (onKeys act : MapAction K V δ α) :=
  Env.leaves_onKeys.second

omit [Env.Aloof view] in
theorem leaves_acquire : Leaves (Env.around view) (acquire : MapAction K V δ Unit) :=
  leaves_read.bind fun _ => leaves_check.bind fun _ => fun _ => rfl

omit [Env.Aloof view] in
theorem leaves_writing {act : MapAction K V δ α} (leaves : act.Leaves (Env.around view)) :
    Leaves (Env.around view) (writing act) :=
  leaves_acquire.bind fun _ => leaves.ensuring fun _ => rfl

omit [Env.Aloof view] in
theorem leaves_writingWith {act : Action ((Map K V × Env δ) × ρ) α}
    (leaves : act.Leaves fun s => Env.around view s.1) :
    Leaves (fun s : (Map K V × Env δ) × ρ => Env.around view s.1) (writingWith act) :=
  leaves_acquire.first.bind fun _ => leaves.ensuring fun _ => rfl

theorem leaves_ofTable {table : Table K V} :
    Leaves Env.grants (ofTable table : Action (Env δ) (Map K V)) :=
  fun _ => rfl

theorem leaves_empty : Leaves Env.grants (empty : Action (Env δ) (Map K V)) :=
  (Env.leaves_onKeys.bind fun _ => leaves_pure).bind fun _ => leaves_ofTable

theorem leaves_withCapacity? {capacity : Nat} :
    Leaves Env.grants (withCapacity? capacity : Action (Env δ) (Map K V)) := by
  refine Leaves.bind ?_ fun _ => leaves_ofTable
  unfold Table.withCapacity
  simp only
  split
  · exact leaves_pure.bind fun _ => Env.leaves_onKeys.bind fun _ => leaves_pure
  · exact Env.leaves_allocate.bind fun _ => Env.leaves_onKeys.bind fun _ => leaves_pure

theorem leaves_insert? {key : K} {value : V} :
    Leaves memory (insert? scheme key value : MapAction K V δ (Option V)) := by
  refine leaves_read.bind fun map => leaves_onKeys.bind fun hash => leaves_writing
    (leaves_onTable (Table.leaves_claim.bind fun claim => ?_))
  cases claim with
  | occupied pos => exact Table.leaves_updateEntry.bind fun _ => leaves_pure
  | vacant index offset => exact Table.leaves_fill.bind fun _ => leaves_pure

theorem leaves_getOrInsert? {key : K} {default : StateM ρ (Except String V)} {f : V → V} :
    Leaves (fun s : (Map K V × Env δ) × ρ => memory s.1)
      (getOrInsert? scheme key default f) := by
  refine leaves_read.first.bind fun map => leaves_onKeys.first.bind fun hash => leaves_writingWith
    ((leaves_onTable Table.leaves_claim).first.bind fun claim => ?_)
  cases claim with
  | occupied pos =>
    exact (leaves_onTable Table.leaves_updateEntry).first.bind fun _ => leaves_pure
  | vacant index offset =>
    apply leaves_second.bind
    intro answer
    cases answer with
    | error text => exact leaves_abort
    | ok value => exact (leaves_onTable Table.leaves_fill).first.bind fun _ => leaves_pure

theorem leaves_adjust {key : K} {f : V → V} :
    Leaves (Env.around view) (adjust scheme key f : MapAction K V δ (Option V)) := by
  refine leaves_read.bind fun map => leaves_onKeys.bind fun answer => ?_
  cases answer with
  | none => exact leaves_pure
  | some pos => exact (leaves_onTable Table.leaves_updateEntry).bind fun _ => leaves_pure

theorem leaves_removePair? {key : K} :
    Leaves (Env.around view) (removePair? scheme key : MapAction K V δ (Option (K × V))) := by
  unfold removePair?
  apply leaves_read.bind
  intro map
  split
  · exact leaves_onKeys.bind fun _ => leaves_pure
  · exact leaves_read.bind fun _ => leaves_onKeys.bind fun _ =>
      leaves_writing (leaves_onTable Table.leaves_delete)

theorem leaves_clear : Leaves (Env.around view) (clear : MapAction K V δ Unit) :=
  leaves_writing (leaves_onTable Table.leaves_clear)

theorem leaves_retain {f : K → V → StateM ρ (V × Except String Bool)} :
    Leaves (fun s : (Map K V × Env δ) × ρ => Env.around view s.1) (retain scheme f) :=
  leaves_writingWith fun s => Table.leaves_retain ((s.1.1.table, s.1.2), s.2)

theorem leaves_extend {pairs : List (K × V)} :
    Leaves memory (extend scheme pairs : MapAction K V δ Unit) :=
  .forM (fun _ => leaves_insert?.orAbort.map) pairs

end Map

theorem Sweep.leaves_ofMap : Leaves (Env.around view) (ofMap scheme : MapAction K V δ Sweep) :=
  (Map.leaves_writing (Map.leaves_onTable Table.leaves_finishGrowth)).bind fun _ =>
    Map.leaves_read.bind fun _ => Map.leaves_onKeys.bind fun _ => Map.leaves_read.bind fun _ =>
      leaves_pure

omit [Env.Aloof view] in
theorem Sweep.leaves_next {f : V → V} {sweep : Sweep} :
    Leaves (Env.around view) (sweep.next f : MapAction K V δ (Option (K × V) × Sweep)) := by
  unfold next
  split
  · exact leaves_pure
  · apply Map.leaves_read.bind
    intro map
    split
    · exact leaves_pure
    · exact (Map.leaves_onTable Table.leaves_updateEntry).bind fun _ => leaves_pure

end GradualMap
