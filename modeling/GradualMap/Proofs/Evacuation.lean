import GradualMap.Proofs.Array
import GradualMap.Proofs.Scheme
import Mathlib.Data.List.Forall2

/-!
Evacuating one chain. The entries of the old chain are dealt out to one or two chains of the current
array in their order, and those chains come out packed; `Evacuates` says so for the whole table.
-/

namespace GradualMap

open GradualMap.Action

variable {K V δ : Type}

/-- Some state in which an entry is routed so. -/
def Routing.Routes (routing : Routing) (scheme : KeyScheme K δ) (top : UInt8) (key : K)
    (routed : Half × UInt8) : Prop :=
  ∃ env, (routing.route scheme top key env).1 = .ok routed

/-- The entry of an old slot under its new hash byte, with the half it goes to. -/
def Routing.Carries (routing : Routing) (scheme : KeyScheme K δ) (item : UInt8 × Entry K V)
    (moved : Half × UInt8 × Entry K V) : Prop :=
  moved.2.2 = item.2 ∧ routing.Routes scheme item.1 item.2.key (moved.1, moved.2.1)

/-- Whether entries may go to that half at all. -/
def Routing.Uses (routing : Routing) (half : Half) : Prop :=
  half = .high → routing.sameSize = false

/-- What one half receives, in order. -/
def received (half : Half) (moved : List (Half × UInt8 × Entry K V)) :
    List (UInt8 × Entry K V) :=
  (moved.filter (·.1 = half)).map (·.2)

/-- A row turned over: where an entry was the tag tells the half it went to, and elsewhere that there
was none. Nothing is left in it. -/
inductive Row.Turned :
    List (Slot K V) → List (Half × UInt8 × Entry K V) → List (Slot K V) → Prop
  | nil : Turned [] [] []
  | full {top byte : UInt8} {entry : Entry K V} {half : Half} {rest turned : List (Slot K V)}
      {moved : List (Half × UInt8 × Entry K V)} (later : Turned rest moved turned) :
      Turned (.full top entry :: rest) ((half, byte, entry) :: moved) ({ tag := half.tag } :: turned)
  | empty {slot : Slot K V} {rest turned : List (Slot K V)}
      {moved : List (Half × UInt8 × Entry K V)} (empty : slot.tag.isEmpty = true)
      (later : Turned rest moved turned) :
      Turned (slot :: rest) moved ({ tag := .evacuatedEmpty } :: turned)

/-- A chain as an evacuation fills it: packed, and with no bucket more than it needs. -/
structure Chain.Packed (items : List (UInt8 × Entry K V)) (chain : Chain K V) : Prop where
  row : Row.Packed items chain.slots
  cells : chain.cells.length = (items.length - 1) / bucketSize

theorem Chain.packed_empty : (Chain.empty : Chain K V).Packed [] where
  row := ⟨bucketSize, rfl⟩
  cells := by simp [Chain.empty]

/-- Only a doubling fills a high half. -/
theorem Routing.Routes.uses {routing : Routing} {scheme : KeyScheme K δ} {top : UInt8} {key : K}
    {routed : Half × UInt8} (h : routing.Routes scheme top key routed) : routing.Uses routed.1 := by
  obtain ⟨env, run⟩ := h
  have low : routing.sameSize = true → routed.1 = .low := by
    intro same
    unfold route at run
    rw [if_pos same] at run
    exact (Except.ok.inj run) ▸ rfl
  intro high
  cases same : routing.sameSize with
  | false => rfl
  | true => exact absurd (high.symm.trans (low same)) (by decide)

theorem Routing.routes_ends {routing : Routing} {scheme : KeyScheme K δ} {top : UInt8} {key : K}
    {env : KeyEnv δ} : Ends (routing.route scheme top key) env
      (fun routed _ => routing.Routes scheme top key routed) fun _ _ => True :=
  ends_run.mono (fun _ _ run => ⟨env, by rw [run]⟩) fun _ _ _ => trivial

/-- The halves are apart. -/
theorem Routing.target_ne {routing : Routing} (pos : 0 < routing.oldSize) (old : Nat)
    {half other : Half} (ne : half ≠ other) :
    routing.target old half ≠ routing.target old other := by
  cases half <;> cases other <;> simp_all [target] <;> omega

theorem Half.tag_isEvacuated (half : Half) : half.tag.isEvacuated = true := by
  cases half <;> rfl

theorem Filled.count_add (filled : Filled) (half other : Half) :
    (filled.add half).count other = filled.count other + if half = other then 1 else 0 := by
  cases half <;> cases other <;> rfl

theorem received_cons (half : Half) (head : Half × UInt8 × Entry K V)
    (moved : List (Half × UInt8 × Entry K V)) :
    received half (head :: moved) =
      (if head.1 = half then [head.2] else []) ++ received half moved := by
  unfold received
  by_cases h : head.1 = half <;> simp [h]

theorem Row.Packed.append {items : List (UInt8 × Entry K V)} {row : List (Slot K V)}
    (h : Row.Packed items row) (item : UInt8 × Entry K V) (room : items.length < row.length) :
    Row.Packed (items ++ [item]) (row.set items.length (.full item.1 item.2)) := by
  obtain ⟨spare, rfl⟩ := h
  cases spare with
  | zero => simp at room
  | succ spare =>
    refine ⟨spare, ?_⟩
    simp [List.replicate_succ]

theorem Chain.Packed.append {items : List (UInt8 × Entry K V)} {chain : Chain K V}
    (h : chain.Packed items) (item : UInt8 × Entry K V) (room : items.length < chain.slots.length) :
    (chain.set items.length (.full item.1 item.2)).Packed (items ++ [item]) where
  row := h.row.append item room
  cells := by
    have length := chain.length_slots
    have cells := h.cells
    simp only [bucketSize, List.length_append, List.length_singleton] at *
    change chain.cells.length = _
    omega

/-- A full chain takes one more entry in a new bucket. -/
theorem Chain.Packed.append_link {items : List (UInt8 × Entry K V)} {chain : Chain K V}
    (h : chain.Packed items) (item : UInt8 × Entry K V) (full : items.length = chain.slots.length)
    (cell : Nat) :
    ((chain.link cell).set items.length (.full item.1 item.2)).Packed (items ++ [item]) where
  row := by
    refine Row.Packed.append ?_ item (by simp [full, bucketSize])
    obtain ⟨spare, row⟩ := h.row
    exact ⟨spare + bucketSize, by rw [slots_link, row, List.append_assoc,
      List.replicate_append_replicate]⟩
  cells := by
    have length := chain.length_slots
    have cells := h.cells
    simp only [bucketSize, List.length_append, List.length_singleton] at *
    change (chain.cells ++ [cell]).length = _
    rw [List.length_append, List.length_singleton]
    omega

namespace Table

variable {table : Table K V} {env : Env δ}

/-- How the estimate and the overflow buckets stand to each other: it is never above them, and below
`2 ^ 16` chains it misses none until it can count no further. -/
structure Gauged (table : Table K V) : Prop where
  le : table.overflowCount ≤ table.current.linked
  exact : table.exponent < 16 → table.overflowCount = min table.current.linked maxOverflowCount

/-- The estimate after one more bucket. -/
structure Counted (exponent before after : Nat) : Prop where
  le : after ≤ before + 1
  exact : exponent < 16 → after = min (before + 1) maxOverflowCount

/-- The bucket was linked, and then counted. -/
theorem Gauged.counted {current : BucketArray K V} {overflowCount : Nat} (gauged : table.Gauged)
    (linked : current.linked = table.current.linked + 1)
    (counted : Counted table.exponent table.overflowCount overflowCount) :
    Gauged { table with current, overflowCount } where
  le := by
    have le := gauged.le
    have counted := counted.le
    simp only [linked]
    omega
  exact small := by
    have exact := gauged.exact small
    have counted := counted.exact small
    simp only [linked]
    omega

theorem countOverflow_yields (table : Table K V) (env : Env δ) :
    Yields countOverflow (table, env) fun _ s =>
      ∃ overflowCount, s.1 = { table with overflowCount } ∧
        Counted table.exponent table.overflowCount overflowCount ∧ s.2.log = env.log := by
  have counted : ∀ (counts : Bool) (env : Env δ), (table.exponent < 16 → counts = true) → Yields
      (if counts then modify fun table : Table K V =>
        { table with overflowCount := min (table.overflowCount + 1) maxOverflowCount }
       else pure ()) (table, env) fun _ s =>
      ∃ overflowCount, s.1 = { table with overflowCount } ∧
        Counted table.exponent table.overflowCount overflowCount ∧ s.2.log = env.log := by
    intro counts env all
    cases counts
    · exact ⟨_, rfl, ⟨Nat.le_succ _, fun small => absurd (all small) Bool.false_ne_true⟩, rfl⟩
    · exact ⟨_, rfl, ⟨Nat.min_le_left _ _, fun _ => rfl⟩, rfl⟩
  unfold countOverflow Yields
  simp only [ends_bind, ends_read]
  split
  · exact counted true env fun _ => rfl
  · rename_i large
    rw [ends_bind, ends_map, ends_onKeys]
    exact (KeyEnv.draw_yields _).ends fun word keys _ => counted _ _ fun small => absurd small large

theorem place_yields (table : Table K V) {index : Nat} {items : List (UInt8 × Entry K V)}
    (bound : index < table.current.size) (packed : (table.current.chainAt index).Packed items)
    (item : UInt8 × Entry K V) :
    Yields (place index items.length (.full item.1 item.2)) (table, env) fun _ s =>
      ∃ current overflowCount, s.1 = { table with current, overflowCount } ∧
        current.size = table.current.size ∧
        (current.chainAt index).Packed (items ++ [item]) ∧
        (∀ i, i ≠ index → current.chainAt i = table.current.chainAt i) ∧
        overflowCount + (items.length - 1) / bucketSize ≤
          table.overflowCount + items.length / bucketSize ∧
        (table.Gauged → Gauged { table with current, overflowCount }) ∧ s.2.log = env.log := by
  have length := (table.current.chainAt index).length_slots
  have cells := packed.cells
  have room : items.length ≤ (table.current.chainAt index).slots.length := by
    obtain ⟨spare, row⟩ := packed.row
    simp [row]
  unfold place Yields
  simp only [ends_bind, ends_read]
  rw [ends_check_ok (BucketArray.fetch_eq bound)]
  split
  · rename_i full
    rw [ends_bind, ends_modify]
    apply (countOverflow_yields _ env).ends
    rintro _ _ ⟨overflowCount, eq, counted, log⟩
    have le := counted.le
    refine ⟨(table.current.link index).setSlot index items.length (.full item.1 item.2),
      overflowCount, eq, by simp, ?_, fun i ne => ?_, ?_, fun gauged => gauged.counted rfl counted,
      log⟩
    · rw [BucketArray.chainAt_setSlot (by simpa), if_pos rfl, BucketArray.chainAt_link bound,
        if_pos rfl]
      exact packed.append_link item full _
    · rw [BucketArray.chainAt_setSlot (by simpa), if_neg ne, BucketArray.chainAt_link bound,
        if_neg ne]
    · simp only [bucketSize] at *
      omega
  · rename_i notFull
    have less := Nat.lt_of_le_of_ne room notFull
    rw [if_neg (by simp only [bucketSize] at *; omega), ends_setCurrent]
    refine ⟨_, table.overflowCount, rfl, by simp, ?_, fun i ne => ?_, ?_,
      fun gauged => ⟨gauged.le, gauged.exact⟩, rfl⟩
    · rw [BucketArray.chainAt_setSlot bound, if_pos rfl]
      exact packed.append item less
    · rw [BucketArray.chainAt_setSlot bound, if_neg ne]
    · exact Nat.add_le_add_left (Nat.div_le_div_right (Nat.sub_le _ _)) _

/-- The table with another old array in its resize. -/
def withFormer (table : Table K V) (resize : Resize K V) (array : BucketArray K V) : Table K V :=
  { table with resize := some { resize with array } }

@[simp] theorem withFormer_current (resize : Resize K V) (array : BucketArray K V) :
    (table.withFormer resize array).current = table.current :=
  rfl

theorem ends_setFormer {resize : Resize K V} (growing : table.resize = some resize)
    {old offset : Nat} {slot : Slot K V} {post : Unit → Table K V × Env δ → Prop}
    {fails : Failure → Table K V × Env δ → Prop} :
    Ends (setFormer old offset slot) (table, env) post fails ↔
      post () (table.withFormer resize (resize.array.setSlot old offset slot), env) := by
  unfold setFormer withFormer
  rw [ends_modify]
  simp only [growing, Option.map_some]

theorem ends_setFormer_withFormer {resize : Resize K V} {array : BucketArray K V}
    {old offset : Nat} {slot : Slot K V} {post : Unit → Table K V × Env δ → Prop}
    {fails : Failure → Table K V × Env δ → Prop} :
    Ends (setFormer old offset slot) (table.withFormer resize array, env) post fails ↔
      post () (table.withFormer resize (array.setSlot old offset slot), env) :=
  Iff.rfl

/-- The buckets that rows of these lengths take beyond the primary ones. -/
def overflowOf (rows : Half → List (UInt8 × Entry K V)) : Nat :=
  ((rows .low).length - 1) / bucketSize + ((rows .high).length - 1) / bucketSize

/-- What dealing out slots of old chain `old` has come to: the halves held `rows` before, and now
`moved` comes behind them. -/
structure Dealt (routing : Routing) (old : Nat) (rows : Half → List (UInt8 × Entry K V))
    (moved : List (Half × UInt8 × Entry K V)) (before after : Table K V) : Prop where
  count : after.count = before.count
  exponent : after.exponent = before.exponent
  seed : after.seed = before.seed
  size : after.current.size = before.current.size
  filled : ∀ half, routing.Uses half →
    (after.current.chainAt (routing.target old half)).Packed (rows half ++ received half moved)
  others : ∀ i, (∀ half, routing.Uses half → i ≠ routing.target old half) →
    after.current.chainAt i = before.current.chainAt i
  overflow : after.overflowCount + overflowOf rows ≤
    before.overflowCount + overflowOf fun half => rows half ++ received half moved
  gauged : before.Gauged → after.Gauged
  vacated : ∀ resize, before.resize = some resize → ∃ array,
    after.resize = some { resize with array } ∧ array.size = resize.array.size ∧
    (∀ i, i ≠ old → array.chainAt i = resize.array.chainAt i) ∧
    Row.Vacated (array.chainAt old).slots

/-- The slots of old chain `old` from `offset` on, those of `rest`, were turned over. -/
def Overturned (resize : Resize K V) (old offset : Nat) (rest : List (Slot K V))
    (moved : List (Half × UInt8 × Entry K V)) (after : Table K V) : Prop :=
  ∃ array turned, after.resize = some { resize with array } ∧
    (array.chainAt old).slots = (resize.array.chainAt old).slots.take offset ++ turned ∧
    Row.Turned rest moved turned

/-- The rows after one more entry went to a half. -/
def extended (rows : Half → List (UInt8 × Entry K V)) (half : Half) (item : UInt8 × Entry K V) :
    Half → List (UInt8 × Entry K V) :=
  fun other => rows other ++ if half = other then [item] else []

namespace Dealt

variable {routing : Routing} {old : Nat} {rows : Half → List (UInt8 × Entry K V)}
  {moved : List (Half × UInt8 × Entry K V)} {before after : Table K V} {resize : Resize K V}

/-- Tagging slots of the old chain on the way changes nothing of the outcome. -/
theorem of_retagged {array : BucketArray K V} (growing : before.resize = some resize)
    (size : array.size = resize.array.size)
    (others : ∀ i, i ≠ old → array.chainAt i = resize.array.chainAt i)
    (h : Dealt routing old rows moved (before.withFormer resize array) after) :
    Dealt routing old rows moved before after where
  count := h.count
  exponent := h.exponent
  seed := h.seed
  size := h.size
  filled := h.filled
  others := h.others
  overflow := h.overflow
  gauged := fun gauged => h.gauged ⟨gauged.le, gauged.exact⟩
  vacated := by
    intro resize' growing'
    obtain rfl : resize = resize' := Option.some.inj (growing.symm.trans growing')
    obtain ⟨last, eq, size', others', vacated⟩ := h.vacated _ rfl
    exact ⟨last, eq, size'.trans size, fun i ne => (others' i ne).trans (others i ne), vacated⟩

theorem extended_append (half other : Half) (item : UInt8 × Entry K V) :
    extended rows half item other ++ received other moved =
      rows other ++ received other ((half, item) :: moved) := by
  rw [received_cons, ← List.append_assoc]
  rfl

/-- One entry placed, and the rest after it. -/
theorem cons {half : Half} {item : UInt8 × Entry K V} {current : BucketArray K V}
    {overflowCount : Nat} (uses : routing.Uses half)
    (size : current.size = before.current.size)
    (others : ∀ i, i ≠ routing.target old half → current.chainAt i = before.current.chainAt i)
    (counted : overflowCount + ((rows half).length - 1) / bucketSize ≤
      before.overflowCount + (rows half).length / bucketSize)
    (gauged : before.Gauged → Gauged { before with current, overflowCount })
    (h : Dealt routing old (extended rows half item) moved
      { before with current, overflowCount } after) :
    Dealt routing old rows ((half, item) :: moved) before after where
  count := h.count
  exponent := h.exponent
  seed := h.seed
  size := h.size.trans size
  filled := fun other uses => extended_append half other item ▸ h.filled other uses
  others := fun i apart => (h.others i apart).trans (others i (apart half uses))
  overflow := by
    have later := h.overflow
    simp only [extended_append] at later
    cases half <;> simp [overflowOf, extended] at later counted ⊢ <;> omega
  gauged := fun before => h.gauged (gauged before)
  vacated := h.vacated

end Dealt

theorem lt_of_drop {row : List (Slot K V)} {offset : Nat} {slot : Slot K V}
    {rest : List (Slot K V)} (drop : row.drop offset = slot :: rest) : offset < row.length := by
  apply Nat.lt_of_not_le
  intro le
  rw [List.drop_eq_nil_of_le le] at drop
  cases drop

theorem take_set_succ {row : List (Slot K V)} {offset : Nat} {slot new : Slot K V}
    {rest : List (Slot K V)} (drop : row.drop offset = slot :: rest) :
    (row.set offset new).take (offset + 1) = row.take offset ++ [new] := by
  rw [List.take_succ_eq_append_getElem (by simpa using lt_of_drop drop), List.getElem_set_self,
    List.take_set_of_le (Nat.le_refl _)]

/-- A slot of a row turned over: what is left of the row, and what was turned over so far. -/
theorem drop_set_succ {row : List (Slot K V)} {offset : Nat} {slot : Slot K V}
    {rest : List (Slot K V)} (drop : row.drop offset = slot :: rest)
    (vacated : Row.Vacated (row.take offset)) {new : Slot K V}
    (tag : new.tag.isEvacuated = true) (none : new.entry = none) :
    (row.set offset new).drop (offset + 1) = rest ∧
      Row.Vacated ((row.set offset new).take (offset + 1)) := by
  constructor
  · rw [List.drop_set_of_lt (Nat.lt_succ_self _), ← List.tail_drop, drop]
    rfl
  · rw [take_set_succ drop]
    apply vacated.append
    intro slot mem
    rw [List.mem_singleton.mp mem]
    exact ⟨tag, none⟩

/-- One slot turned over, and the rest after it. -/
theorem Overturned.turn {resize : Resize K V} {array : BucketArray K V} {old offset : Nat}
    {slot new : Slot K V} {rest : List (Slot K V)}
    {moved moved' : List (Half × UInt8 × Entry K V)} {after : Table K V}
    (left : (resize.array.chainAt old).slots.drop offset = slot :: rest)
    (written : array.chainAt old = (resize.array.chainAt old).set offset new)
    (first : ∀ turned, Row.Turned rest moved turned →
      Row.Turned (slot :: rest) moved' (new :: turned))
    (h : Overturned { resize with array } old (offset + 1) rest moved after) :
    Overturned resize old offset (slot :: rest) moved' after := by
  obtain ⟨last, turned, growing, slots, rows⟩ := h
  refine ⟨last, new :: turned, growing, ?_, first turned rows⟩
  rw [slots, written, Chain.slots_set, take_set_succ left, List.append_assoc]
  rfl

/-- A chain amid its evacuation: its slots before `offset` were turned over, those of `rest` are
left, and the halves hold `rows`. -/
structure Dealing (routing : Routing) (exact : Prop) (old : Nat) (rest : List (Slot K V))
    (offset : Nat) (filled : Filled) (rows : Half → List (UInt8 × Entry K V)) (resize : Resize K V)
    (table : Table K V) : Prop where
  growing : table.resize = some resize
  bound : old < resize.array.size
  left : (resize.array.chainAt old).slots.drop offset = rest
  vacated : Row.Vacated ((resize.array.chainAt old).slots.take offset)
  tidy : Row.Tidy exact rest
  halves : ∀ half, routing.Uses half → routing.target old half < table.current.size ∧
    (table.current.chainAt (routing.target old half)).Packed (rows half)
  counts : ∀ half, filled.count half = (rows half).length

namespace Dealing

variable {routing : Routing} {exact : Prop} {old offset : Nat} {slot : Slot K V}
  {rest : List (Slot K V)} {filled : Filled} {rows : Half → List (UInt8 × Entry K V)}
  {resize : Resize K V}

theorem dealt (dealing : Dealing routing exact old [] offset filled rows resize table) :
    Dealt routing old rows [] table table := by
  refine ⟨rfl, rfl, rfl, rfl, fun half uses => ?_, fun _ _ => rfl, ?_, id,
    fun resize' growing => ?_⟩
  · simpa [received] using (dealing.halves half uses).2
  · simp [received]
  · obtain rfl : resize = resize' := Option.some.inj (dealing.growing.symm.trans growing)
    refine ⟨_, dealing.growing, rfl, fun _ _ => rfl, ?_⟩
    rw [← List.take_append_drop offset (Chain.slots _), dealing.left, List.append_nil]
    exact dealing.vacated

/-- The next slot is turned over. -/
theorem turn (dealing : Dealing routing exact old (slot :: rest) offset filled rows resize table)
    {new : Slot K V} (tag : new.tag.isEvacuated = true) (none : new.entry = none)
    {array : BucketArray K V} (size : array.size = resize.array.size)
    (turned : array.chainAt old = (resize.array.chainAt old).set offset new) :
    Dealing routing exact old rest (offset + 1) filled rows { resize with array }
      (table.withFormer resize array) := by
  obtain ⟨left, vacated⟩ := drop_set_succ dealing.left dealing.vacated tag none
  rw [← Chain.slots_set, ← turned] at left vacated
  exact ⟨rfl, size ▸ dealing.bound, left, vacated, Row.Tidy.suffix [slot] dealing.tidy,
    dealing.halves, dealing.counts⟩

/-- An entry is placed behind those that its half holds. -/
theorem place (dealing : Dealing routing exact old rest offset filled rows resize table)
    (pos : 0 < routing.oldSize) {half : Half} {item : UInt8 × Entry K V}
    {current : BucketArray K V} (size : current.size = table.current.size)
    (packed : (current.chainAt (routing.target old half)).Packed (rows half ++ [item]))
    (others : ∀ i, i ≠ routing.target old half → current.chainAt i = table.current.chainAt i)
    (overflowCount : Nat) :
    Dealing routing exact old rest offset (filled.add half) (extended rows half item) resize
      { table with current, overflowCount } where
  growing := dealing.growing
  bound := dealing.bound
  left := dealing.left
  vacated := dealing.vacated
  tidy := dealing.tidy
  halves other uses := by
    refine ⟨size ▸ (dealing.halves other uses).1, ?_⟩
    by_cases same : half = other
    · subst same
      simpa [extended] using packed
    · rw [others _ (Routing.target_ne pos old (Ne.symm same))]
      simpa [extended, same] using (dealing.halves other uses).2
  counts other := by
    rw [Filled.count_add, dealing.counts other, extended, List.length_append]
    split <;> rfl

end Dealing

theorem evacuateSlots_ends {scheme : KeyScheme K δ} {routing : Routing} {exact : Prop}
    {stalls : Failure → Prop} {old : Nat} (pos : 0 < routing.oldSize) (rest : List (Slot K V)) :
    ∀ {table : Table K V} {rows : Half → List (UInt8 × Entry K V)} {env : Env δ}
      {resize : Resize K V} {offset : Nat} {filled : Filled},
      Dealing routing exact old rest offset filled rows resize table →
      (∀ item ∈ Row.live rest, ∀ env, Ends (routing.route scheme item.1 item.2.key) env
        (fun _ _ => True) fun failure _ => stalls failure) →
      Ends (evacuateSlots scheme routing old rest offset filled) (table, env)
        (fun _ s => ∃ moved, List.Forall₂ (routing.Carries scheme) (Row.live rest) moved ∧
          Dealt routing old rows moved table s.1 ∧ Overturned resize old offset rest moved s.1 ∧
          s.2.log = env.log)
        (fun failure _ => stalls failure) := by
  induction rest with
  | nil =>
    intro table rows env resize offset filled dealing _
    refine ⟨[], .nil, dealing.dealt, ⟨_, [], dealing.growing, ?_, .nil⟩, rfl⟩
    rw [List.append_nil, List.take_of_length_le (List.drop_eq_nil_iff.mp dealing.left)]
  | cons slot rest ih =>
    intro table rows env resize offset filled dealing routable
    have growing := dealing.growing
    have bound := dealing.bound
    have skip (none : slot.entry = none) (empty : slot.tag.isEmpty = true)
        (still : Row.live (slot :: rest) = Row.live rest) :
        Ends (do
          setFormer old offset { slot with tag := .evacuatedEmpty }
          evacuateSlots scheme routing old rest (offset + 1) filled) (table, env)
          (fun _ s =>
            ∃ moved, List.Forall₂ (routing.Carries scheme) (Row.live (slot :: rest)) moved ∧
              Dealt routing old rows moved table s.1 ∧
              Overturned resize old offset (slot :: rest) moved s.1 ∧ s.2.log = env.log)
          (fun failure _ => stalls failure) := by
      have written := BucketArray.chainAt_setSlot bound offset { slot with tag := .evacuatedEmpty }
      rw [ends_bind, ends_setFormer growing]
      have tagged : ({ slot with tag := .evacuatedEmpty } : Slot K V).tag.isEvacuated = true := rfl
      have here := (written old).trans (if_pos rfl)
      have dealing' := dealing.turn tagged none (by simp) here
      refine (ih dealing' (still ▸ routable)).mono ?_ fun _ _ => id
      rintro _ s ⟨moved, carried, dealt, overturned, log⟩
      refine ⟨moved, still ▸ carried, dealt.of_retagged growing (by simp) fun i ne => ?_,
        overturned.turn dealing.left here fun turned later => ?_, log⟩
      · rw [written, if_neg ne]
      · rw [none]
        exact .empty empty later
    rcases dealing.tidy.mem slot (.head _) with ⟨top, entry, _, rfl⟩ | rfl | rfl
    · change Ends (do
        setFormer old offset ⟨.full top, none⟩
        let way ← onKeys (routing.route scheme top entry.key)
        setFormer old offset { tag := way.1.tag }
        place (routing.target old way.1) (filled.count way.1) (.full way.2 entry)
        evacuateSlots scheme routing old rest (offset + 1) (filled.add way.1)) (table, env) _ _
      rw [ends_bind, ends_setFormer growing, ends_bind, ends_onKeys]
      apply ((routable (top, entry) (.head _) env.keys).both Routing.routes_ends).mono ?_
        fun _ _ stalled => stalled.1
      rintro ⟨half, byte⟩ keys ⟨-, routes⟩
      have uses : routing.Uses half := routes.uses
      rw [ends_bind, ends_setFormer_withFormer, ends_bind]
      -- The slot is written twice: its entry is taken out, then its tag tells where that went.
      have written := BucketArray.chainAt_modify_setSlot bound offset ⟨.full top, none⟩
        (·.set offset { tag := half.tag })
      have here := (written old).trans ((if_pos rfl).trans (Chain.set_set _ _ _))
      have turned := dealing.turn half.tag_isEvacuated rfl (by simp) here
      obtain ⟨inside, packed⟩ := turned.halves half uses
      rw [turned.counts half]
      refine (place_yields _ inside packed (byte, entry)).ends ?_
      rintro _ ⟨_, env'⟩ ⟨current, overflowCount, rfl, size, packed', others, counted, gauged, log⟩
      have dealing' := turned.place pos size packed' others overflowCount
      refine (ih dealing' fun item mem => routable item (.tail _ mem)).mono ?_ fun _ _ => id
      rintro _ ⟨after, _⟩ ⟨moved, carried, dealt, overturned, log'⟩
      refine ⟨(half, byte, entry) :: moved, .cons ⟨rfl, routes⟩ carried, ?_,
        overturned.turn dealing.left here fun _ => .full, log'.trans log⟩
      exact .of_retagged growing (by simp) (fun i ne => (written i).trans (if_neg ne))
        (.cons uses size others counted gauged dealt)
    · exact skip rfl rfl rfl
    · exact skip rfl rfl rfl

end Table

end GradualMap
