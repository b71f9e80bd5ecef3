import GradualMap.Proofs.Dictionary
import GradualMap.Proofs.Gather
import GradualMap.Proofs.Path
import Mathlib.Algebra.BigOperators.Group.Finset.Basic
import Mathlib.Algebra.BigOperators.Group.Finset.Piecewise
import Mathlib.Algebra.Order.BigOperators.Group.Finset
import Mathlib.Algebra.Order.Group.Multiset

/-!
Which strays belong to which indices. No look-up leads to a stray, so what counts is that nothing
moves one from one class of indices to another: a doubling deals it out by the lowest bit of its
hash byte, which is also what a walk reads of it before it is moved.
-/

namespace GradualMap

open GradualMap.Action

variable {K V δ : Type} {reading : Reading K} {scheme : KeyScheme K δ}

/-- The entries that no look-up can find, regardless of their order. -/
def strays (reading : Reading K) (entries : List (Entry K V)) : Multiset (Entry K V) :=
  (entries.filter (!·.isKnown reading) : List (Entry K V))

section

variable {entry : Entry K V} {entries others : List (Entry K V)}

@[simp] theorem strays_nil : strays reading ([] : List (Entry K V)) = 0 :=
  rfl

@[simp] theorem strays_append :
    strays reading (entries ++ others) = strays reading entries + strays reading others := by
  simp [strays]

theorem strays_cons (entry : Entry K V) (entries : List (Entry K V)) :
    strays reading (entry :: entries) = strays reading [entry] + strays reading entries := by
  rw [← strays_append, List.singleton_append]

theorem strays_of_known (known : reading.same entry.key entry.key = true) :
    strays reading [entry] = 0 := by
  simp [strays, Entry.isKnown, known]

theorem strays_of_stray (stray : reading.Stray entry.key) : strays reading [entry] = {entry} := by
  simp [strays, Entry.isKnown, show reading.same entry.key entry.key = false from stray]

theorem strays_perm (same : entries.Perm others) : strays reading entries = strays reading others :=
  Multiset.coe_eq_coe.mpr (same.filter _)

theorem mem_strays : entry ∈ strays reading entries ↔
    entry ∈ entries ∧ reading.Stray entry.key := by
  simp [strays, Entry.isKnown, Reading.Stray]

theorem strays_flatMap {α : Type} (f : α → List (Entry K V)) (indices : List α) :
    strays reading (indices.flatMap f) = (indices.map fun i => strays reading (f i)).sum := by
  induction indices with
  | nil => rfl
  | cons index indices ih => simp [ih]

end

namespace Table

variable {table before after : Table K V} {exponent index : Nat} {among : Nat → Bool}

/-- The strays that belong to one index. -/
def straysAt (reading : Reading K) (table : Table K V) (index : Nat) : Multiset (Entry K V) :=
  strays reading ((table.share reading index).map (·.2))

/-- The strays of all indices that come from some of those of a smaller size. -/
def flock (reading : Reading K) (table : Table K V) (exponent : Nat) (among : Nat → Bool) :
    Multiset (Entry K V) :=
  ∑ i ∈ Finset.range table.current.size,
    if among (i % bucketCount exponent) then table.straysAt reading i else 0

theorem flock_congr {other : Nat → Bool} (same : ∀ c < bucketCount exponent, among c = other c) :
    table.flock reading exponent among = table.flock reading exponent other :=
  Finset.sum_congr rfl fun i _ => by rw [same _ (Nat.mod_lt i (bucketCount_pos exponent))]

theorem flock_all (sound : table.Sound (reading.rules True)) (exponent : Nat) :
    table.flock reading exponent (fun _ => true) = strays reading table.entries := by
  have inUse : (List.range table.current.size).toFinset = Finset.range table.current.size := by
    ext i
    simp
  rw [← strays_perm sound.share_perm, strays_flatMap, ← List.sum_toFinset _ List.nodup_range, inUse]
  rfl

/-- The strays of two sets of indices that have none in common. -/
theorem flock_add {either one other : Nat → Bool}
    (split : ∀ c, either c = (one c || other c) ∧ (one c && other c) = false) :
    table.flock reading exponent either =
      table.flock reading exponent one + table.flock reading exponent other := by
  unfold flock
  rw [← Finset.sum_add_distrib]
  refine Finset.sum_congr rfl fun i _ => ?_
  obtain ⟨all, apart⟩ := split (i % bucketCount exponent)
  rw [all]
  cases here : one (i % bucketCount exponent) <;> cases there : other (i % bucketCount exponent) <;>
    simp [here, there] at apart ⊢

theorem flock_add_not (sound : table.Sound (reading.rules True)) (exponent : Nat)
    (among : Nat → Bool) :
    table.flock reading exponent among + table.flock reading exponent (fun c => !among c) =
      strays reading table.entries := by
  rw [← flock_all sound exponent]
  refine (flock_add fun c => ?_).symm
  cases among c <;> simp

theorem flock_le (sound : table.Sound (reading.rules True)) :
    table.flock reading exponent among ≤ strays reading table.entries :=
  flock_add_not sound exponent among ▸ Multiset.le_add_right _ _

theorem flock_of_empty (sound : table.Sound (reading.rules True)) (none : table.entries = []) :
    table.flock reading exponent among = 0 := by
  have le : table.flock reading exponent among ≤ strays reading table.entries := flock_le sound
  rw [none] at le
  exact Multiset.le_zero.mp le

theorem flock_none : table.flock reading exponent (fun _ => false) = 0 := by
  simp [flock]

end Table

/-- What a cursor collects holds the strays of its class. -/
theorem Cursor.strays_gathered {table : Table K V} {cursor : Cursor K V} {first : Nat}
    (small : first < bucketCount cursor.exponent) :
    strays reading (gathered reading table cursor first) =
      table.flock reading cursor.exponent (· == first) := by
  have pos := bucketCount_pos cursor.exponent
  have inClass : (classOf first (bucketCount cursor.exponent) table.current.size).toFinset =
      (Finset.range table.current.size).filter (· % bucketCount cursor.exponent = first) := by
    ext i
    simp [mem_classOf_iff small]
  unfold gathered Table.flock
  rw [strays_flatMap, ← List.sum_toFinset _ (nodup_classOf pos), inClass, Finset.sum_filter]
  refine Finset.sum_congr rfl fun i _ => ?_
  simp only [beq_iff_eq, Table.straysAt, strays_perm (Walk.visitOf_perm cursor.offset i)]

namespace Table

/-- Strays keep to their indices. None has come but those of `fresh`, and none has gone unless some
were dropped. -/
structure Herded (reading : Reading K) (drops : Bool) (fresh : Multiset (Entry K V))
    (before after : Table K V) : Prop where
  exponent_le : before.exponent ≤ after.exponent
  come : ∀ exponent ≤ before.exponent, ∀ among,
    after.flock reading exponent among ≤ before.flock reading exponent among + fresh
  stay : drops = false → ∀ exponent ≤ before.exponent, ∀ among,
    before.flock reading exponent among ≤ after.flock reading exponent among

namespace Herded

variable {drops drops' : Bool} {fresh fresh' : Multiset (Entry K V)}
  {before between after : Table K V}

theorem refl (table : Table K V) : Herded reading drops 0 table table :=
  ⟨Nat.le_refl _, fun _ _ _ => by rw [add_zero], fun _ _ _ _ => le_refl _⟩

theorem trans (first : Herded reading drops fresh before between)
    (second : Herded reading drops fresh' between after) :
    Herded reading drops (fresh + fresh') before after where
  exponent_le := Nat.le_trans first.exponent_le second.exponent_le
  come exponent le among := by
    have one := first.come exponent le among
    have two := second.come exponent (Nat.le_trans le first.exponent_le) among
    rw [← add_assoc]
    exact two.trans (add_le_add_left one fresh')
  stay kept exponent le among := (first.stay kept exponent le among).trans
    (second.stay kept exponent (Nat.le_trans le first.exponent_le) among)

/-- Nothing has come or gone before. -/
theorem later (first : Herded reading drops 0 before between)
    (second : Herded reading drops fresh between after) : Herded reading drops fresh before after :=
  zero_add fresh ▸ first.trans second

theorem mono (herded : Herded reading drops fresh before after) (le : fresh ≤ fresh') :
    Herded reading drops fresh' before after :=
  ⟨herded.exponent_le, fun exponent small among =>
    (herded.come exponent small among).trans (add_le_add_right le _), herded.stay⟩

/-- A table that has run empty has no strays at all. -/
theorem of_empty (sound : after.Sound (reading.rules True)) (none : after.entries = [])
    (exponent_le : before.exponent ≤ after.exponent) : Herded reading true 0 before after := by
  refine ⟨exponent_le, fun exponent _ among => ?_, fun kept => by cases kept⟩
  rw [flock_of_empty sound none]
  exact Multiset.zero_le _

/-- A table that had no entries has none still. -/
theorem of_bare (sound : before.Sound (reading.rules True)) (none : before.entries = [])
    (sound' : after.Sound (reading.rules True)) (none' : after.entries = [])
    (exponent_le : before.exponent ≤ after.exponent) : Herded reading drops 0 before after := by
  refine ⟨exponent_le, fun exponent _ among => ?_, fun _ exponent _ among => ?_⟩
  · rw [flock_of_empty sound' none']
    exact Multiset.zero_le _
  · rw [flock_of_empty sound none]
    exact Multiset.zero_le _

/-- Each index has the strays it had, and one of them some more. -/
theorem of_shares (exponent : after.exponent = before.exponent)
    (size : after.current.size = before.current.size) (index : Nat)
    (shares : ∀ i < before.current.size, after.straysAt reading i =
      before.straysAt reading i + if i = index then fresh else 0) :
    Herded reading drops fresh before after := by
  refine ⟨Nat.le_of_eq exponent.symm, fun exponent _ among => ?_, fun _ exponent _ among => ?_⟩
  · have more :
        ∑ i ∈ Finset.range before.current.size, (if i = index then fresh else 0) ≤ fresh := by
      rw [Finset.sum_ite_eq']
      split
      · exact le_refl _
      · exact Multiset.zero_le _
    unfold flock
    rw [size]
    refine le_trans ?_ (add_le_add_right more _)
    rw [← Finset.sum_add_distrib]
    refine Finset.sum_le_sum fun i mem => ?_
    rw [shares i (Finset.mem_range.mp mem)]
    split
    · exact le_refl _
    · exact Multiset.zero_le _
  · unfold flock
    rw [size]
    refine Finset.sum_le_sum fun i mem => ?_
    rw [shares i (Finset.mem_range.mp mem)]
    split
    · exact Multiset.le_add_right _ _
    · exact le_refl _

theorem of_same (exponent : after.exponent = before.exponent)
    (size : after.current.size = before.current.size)
    (shares : ∀ i < before.current.size, after.straysAt reading i = before.straysAt reading i) :
    Herded reading drops 0 before after :=
  of_shares exponent size 0 fun i bound => by simp [shares i bound]

/-- No index has more strays than it had. -/
theorem of_fewer (exponent : after.exponent = before.exponent)
    (size : after.current.size = before.current.size)
    (shares : ∀ i < before.current.size, after.straysAt reading i ≤ before.straysAt reading i) :
    Herded reading true 0 before after := by
  refine ⟨Nat.le_of_eq exponent.symm, fun exponent _ among => ?_, fun kept => by cases kept⟩
  unfold flock
  rw [size, add_zero]
  refine Finset.sum_le_sum fun i mem => ?_
  split
  · exact shares i (Finset.mem_range.mp mem)
  · exact le_refl _

theorem strays_le (herded : Herded reading drops fresh before after)
    (sound : before.Sound (reading.rules True)) (sound' : after.Sound (reading.rules True)) :
    strays reading after.entries ≤ strays reading before.entries + fresh := by
  have come := herded.come 0 (Nat.zero_le _) fun _ => true
  rwa [flock_all sound, flock_all sound'] at come

/-- An entry that is still there is where it was, if no two strays are alike. -/
theorem holds (herded : Herded reading drops fresh before after)
    (sound : before.Sound (reading.rules True)) (sound' : after.Sound (reading.rules True))
    (apart : (strays reading before.entries + fresh).Nodup) {exponent : Nat}
    (le : exponent ≤ before.exponent) {among : Nat → Bool} {entry : Entry K V}
    (was : entry ∈ before.flock reading exponent among)
    (here : entry ∈ strays reading after.entries) :
    entry ∈ after.flock reading exponent among := by
  rw [← flock_add_not sound' exponent among] at here
  refine (Multiset.mem_add.mp here).resolve_right fun away => ?_
  -- Elsewhere it would have been before, or be new, and there would be two of it.
  have came := Multiset.mem_of_le (herded.come exponent le _) away
  rw [← flock_add_not sound exponent among, Multiset.nodup_add, Multiset.nodup_add] at apart
  obtain ⟨⟨_, _, others⟩, _, fresh⟩ := apart
  rcases Multiset.mem_add.mp came with other | new
  · exact Multiset.disjoint_left.mp others was other
  · exact Multiset.disjoint_left.mp fresh (Multiset.mem_add.mpr (.inl was)) new

end Herded

end Table

end GradualMap
