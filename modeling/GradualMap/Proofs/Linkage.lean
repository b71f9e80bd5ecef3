import GradualMap.Proofs.Arena
import GradualMap.Table.Basic
import Mathlib.Logic.Relation

/-!
What a table does to its buckets, next to the events it reports. An overflow bucket is only ever
linked behind the last bucket of a chain of the current array; an array that is put in its place has
none. So the chains of both arrays stay apart, whatever is written to them and wherever a write
breaks off, and a chain is not taken apart again until its array is replaced or emptied.
-/

namespace GradualMap

/-- The event tells that the current array was replaced or emptied. -/
def Event.renews : Event → Bool
  | .growthStarted .. | .cleared _ => true
  | _ => false

namespace Table

variable {K V : Type} {table : Table K V} {before after : Table K V × List Event}

/-- Both arrays are as described. -/
structure Each (holds : BucketArray K V → Prop) (table : Table K V) : Prop where
  current : holds table.current
  former : ∀ resize, table.resize = some resize → holds resize.array

/-- The chains of both arrays have the cells in use among them. -/
abbrev Tiled : Table K V → Prop :=
  Each BucketArray.Tiled

/-- The chains of both arrays are in the order in which their buckets were linked. -/
abbrev InOrder : Table K V → Prop :=
  Each BucketArray.InOrder

structure WellLinked (table : Table K V) : Prop where
  current : table.current.WellLinked
  former : ∀ resize, table.resize = some resize → resize.array.WellLinked

theorem Each.wellLinked (tiled : table.Tiled) : table.WellLinked :=
  ⟨tiled.current.wellLinked, fun resize growing => (tiled.former resize growing).wellLinked⟩

/-- The buckets of the old array are as they were, if there is one. -/
abbrev FormerAlike (before after : Table K V) : Prop :=
  Option.Rel (fun resize resize' => resize.array.Alike resize'.array) before.resize after.resize

theorem FormerAlike.refl (table : Table K V) : FormerAlike table table := by
  unfold FormerAlike
  cases table.resize with
  | none => exact .none
  | some resize => exact .some (.refl _)

/-- An old array was there before. -/
theorem FormerAlike.former {before after : Table K V} (alike : FormerAlike before after)
    {resize' : Resize K V} (growing' : after.resize = some resize') :
    ∃ resize, before.resize = some resize ∧ resize.array.Alike resize'.array := by
  unfold FormerAlike at alike
  rw [growing'] at alike
  generalize growing : before.resize = resize at alike
  cases alike with
  | some same => exact ⟨_, rfl, same⟩

/-- One step in the life of the buckets of a table. -/
inductive Relinks : Table K V × List Event → Table K V × List Event → Prop
  /-- Slots are written, and perhaps what is kept of the table outside its arrays. -/
  | wrote {before after : Table K V} {log : List Event} (news : List Event)
      (quiet : ∀ event ∈ news, event.renews = false) (current : before.current.Alike after.current)
      (former : FormerAlike before after) : Relinks (before, log) (after, news ++ log)
  /-- An overflow bucket is linked behind the last bucket of a chain. -/
  | linked {before after : Table K V} {log : List Event} {index : Nat}
      (extended : before.current.Extended index after.current)
      (former : FormerAlike before after) : Relinks (before, log) (after, log)
  /-- A table without an array gets its first one. -/
  | reserved {before after : Table K V} {log : List Event} (without : before.current.size = 0)
      (bare : after.current.Bare) (vacant : after.current.vacant = 0)
      (former : FormerAlike before after) :
      Relinks (before, log) (after, log)
  /-- The current array becomes the old one. -/
  | started {before after : Table K V} {log : List Event} {resize : Resize K V}
      {oldExponent exponent count overflowCount : Nat} {sameSize : Bool}
      (bare : after.current.Bare) (vacant : after.current.vacant = 0)
      (growing : after.resize = some resize)
      (array : resize.array = before.current) :
      Relinks (before, log)
        (after, .growthStarted oldExponent exponent count overflowCount sameSize :: log)
  | finished {before after : Table K V} {log : List Event} {exponent count : Nat} {sameSize : Bool}
      (current : after.current = before.current) (idle : after.resize = none) :
      Relinks (before, log) (after, .growthComplete exponent count sameSize :: log)
  | cleared {before after : Table K V} {log : List Event} {exponent : Nat}
      (bare : after.current.Bare) (idle : after.resize = none) :
      Relinks (before, log) (after, .cleared exponent :: log)

/-- What lasts of an array is kept of both. -/
theorem Relinks.each {holds : BucketArray K V → Prop} (lasting : BucketArray.Lasting holds)
    (relinks : Relinks before after) (each : before.1.Each holds) : after.1.Each holds := by
  have kept {before after : Table K V} (former : FormerAlike before after)
      (each : before.Each holds) (resize' : Resize K V) (growing' : after.resize = some resize') :
      holds resize'.array := by
    obtain ⟨resize, growing, same⟩ := former.former growing'
    exact lasting.alike same (each.former resize growing)
  cases relinks with
  | wrote news quiet current former => exact ⟨lasting.alike current each.current, kept former each⟩
  | linked link former => exact ⟨lasting.extended link each.current, kept former each⟩
  | reserved without empty vacant former => exact ⟨lasting.bare empty, kept former each⟩
  | started empty vacant growing array =>
    refine ⟨lasting.bare empty, fun resize' growing' => ?_⟩
    obtain rfl := Option.some.inj (growing.symm.trans growing')
    exact array ▸ each.current
  | finished current idle => exact ⟨current ▸ each.current, by simp [idle]⟩
  | cleared empty idle => exact ⟨lasting.bare empty, by simp [idle]⟩

/-- Any number of steps. -/
abbrev Relinked : Table K V × List Event → Table K V × List Event → Prop :=
  Relation.ReflTransGen Relinks

theorem Relinked.each {holds : BucketArray K V → Prop} (lasting : BucketArray.Lasting holds)
    (relinked : Relinked before after) (each : before.1.Each holds) : after.1.Each holds := by
  induction relinked with
  | refl => exact each
  | tail _ relinks ih => exact relinks.each lasting ih

/-- The chains of the current array may have grown at their ends, and the old array is the one of
before, with the same chains, or was dropped. -/
structure Extends (before after : Table K V) : Prop where
  size : before.current.size ≠ 0 → after.current.size = before.current.size
  chains : ∀ index < before.current.size,
    (before.current.chainAt index).cells <+: (after.current.chainAt index).cells
  /-- What was linked came behind what was linked before it. The first array of a table starts with
  no vacant cells. -/
  order : ∀ {spare : Nat}, (before.current.size = 0 → spare = 0) →
    before.current.OrderedFrom spare → after.current.OrderedFrom spare
  former : ∀ resize', after.resize = some resize' →
    ∃ resize, before.resize = some resize ∧ resize.array.Alike resize'.array

theorem Extends.refl (table : Table K V) : Extends table table :=
  ⟨fun _ => rfl, fun _ _ => List.prefix_refl _, fun _ => id,
    fun resize growing => ⟨resize, growing, .refl _⟩⟩

theorem Extends.trans {before between after : Table K V} (first : Extends before between)
    (second : Extends between after) : Extends before after where
  size allocated := by
    have same := first.size allocated
    exact (second.size (same ▸ allocated)).trans same
  chains index bound := by
    have same := first.size (Nat.ne_zero_of_lt bound)
    exact (first.chains index bound).trans (second.chains index (same ▸ bound))
  order none ordered := by
    refine second.order (fun without => ?_) (first.order none ordered)
    by_contra spare
    have allocated : before.current.size ≠ 0 := fun empty => spare (none empty)
    exact allocated ((first.size allocated).symm.trans without)
  former resize'' growing'' := by
    obtain ⟨resize', growing', alike'⟩ := second.former resize'' growing''
    obtain ⟨resize, growing, alike⟩ := first.former resize' growing'
    exact ⟨resize, growing, alike.trans alike'⟩

/-- What the news, the latest first, say of the chains of the current array. Unless they tell that
the array was replaced or emptied, it has been extended; one that a resize has put in its place has
grown from empty chains. -/
def Grown (news : List Event) (before after : Table K V) : Prop :=
  match news.find? Event.renews with
  | none => before.Extends after
  | some (.growthStarted ..) => after.current.OrderedFrom 0
  | some _ => True

theorem Grown.trans {news news' : List Event} {before between after : Table K V}
    (first : Grown news before between) (second : Grown news' between after) :
    Grown (news' ++ news) before after := by
  unfold Grown at *
  rw [List.find?_append]
  cases latest' : news'.find? Event.renews with
  | some event =>
    rw [latest'] at second
    cases event with
    | growthStarted => exact second
    | _ => trivial
  | none =>
    rw [latest'] at second
    rw [Option.none_or]
    cases latest : news.find? Event.renews with
    | none =>
      rw [latest] at first
      exact first.trans second
    | some event =>
      rw [latest] at first
      cases event with
      | growthStarted => exact second.order (fun _ => rfl) first
      | _ => trivial

/-- The log was added to, and what was added tells how the chains have grown. -/
def Chained (before after : Table K V × List Event) : Prop :=
  ∃ news, after.2 = news ++ before.2 ∧ Grown news before.1 after.1

theorem Chained.trans {between : Table K V × List Event} (first : Chained before between)
    (second : Chained between after) : Chained before after := by
  obtain ⟨news, told, grown⟩ := first
  obtain ⟨news', told', grown'⟩ := second
  exact ⟨news' ++ news, by rw [told', told, List.append_assoc], grown.trans grown'⟩

theorem Relinks.chained (relinks : Relinks before after) : Chained before after := by
  cases relinks with
  | wrote news quiet current former =>
    have same : news.find? Event.renews = none := by
      simpa [List.find?_eq_none] using quiet
    refine ⟨news, rfl, ?_⟩
    unfold Grown
    rw [same]
    refine ⟨fun _ => current.size, fun i bound => ?_, fun _ => current.ordered,
      fun _ => former.former⟩
    rw [current.cells i bound]
  | linked extended former =>
    exact ⟨[], rfl, fun _ => extended.size, fun _ => extended.extends_cells,
      fun _ => extended.ordered, fun _ => former.former⟩
  | reserved without bare vacant former =>
    refine ⟨[], rfl, fun allocated => absurd without allocated, fun i bound => ?_, fun none _ => ?_,
      fun _ => former.former⟩
    · rw [without] at bound
      exact absurd bound (Nat.not_lt_zero i)
    · rw [none without, ← vacant]
      exact bare.ordered
  | started bare vacant =>
    have ordered := bare.ordered
    rw [vacant] at ordered
    exact ⟨[_], rfl, ordered⟩
  | finished current idle =>
    refine ⟨[_], rfl, fun _ => current ▸ rfl, fun i _ => ?_, fun _ ordered => current ▸ ordered,
      by simp [idle]⟩
    rw [current]
  | cleared => exact ⟨[_], rfl, trivial⟩

theorem Relinked.chained (relinked : Relinked before after) : Chained before after := by
  induction relinked with
  | refl => exact ⟨[], rfl, .refl _⟩
  | tail _ relinks ih => exact ih.trans relinks.chained

end Table

end GradualMap
