import GradualMap.Proofs.Array
import Mathlib.Algebra.GroupWithZero.Nat
import Mathlib.Data.List.Infix
import Mathlib.Data.List.Lattice
import Mathlib.Data.List.Nodup
import Mathlib.Data.List.Pairwise

/-!
The buckets of an array and their links. The overflow buckets in use tile a segment of the arena,
each in one chain. So the links from a primary bucket lead over the buckets of its chain, each of
them once, and end. They come in the order in which the arena handed them out: a new bucket is
linked behind all others of its chain.
-/

namespace GradualMap

/-- A bucket: the primary one of a chain, or the overflow bucket in a cell. -/
inductive Bucket where
  | primary (index : Nat)
  | overflow (cell : Nat)
  deriving DecidableEq

variable {K V : Type}

/-- The buckets of chain `index`, each linked behind the one before. -/
def Chain.trail (chain : Chain K V) (index : Nat) : List Bucket :=
  .primary index :: chain.cells.map .overflow

theorem Chain.length_trail (chain : Chain K V) (index : Nat) :
    (chain.trail index).length = chain.cells.length + 1 := by
  simp [trail]

theorem Chain.trail_succ {chain : Chain K V} {index k : Nat} :
    (chain.trail index)[k + 1]? = chain.cells[k]?.map .overflow := by
  simp [trail]

theorem lookup_eq_of_mem_iff {α β : Type} [BEq α] [LawfulBEq α] {pairs : List (α × β)} {a : α}
    {b : Option β} (mem : ∀ b', (a, b') ∈ pairs ↔ b = some b') : pairs.lookup a = b := by
  cases found : pairs.lookup a with
  | none =>
    cases b with
    | none => rfl
    | some b =>
      have differ := List.lookup_eq_none_iff.mp found _ ((mem b).mpr rfl)
      simp at differ
  | some b' =>
    obtain ⟨before, after, rfl, _⟩ := List.lookup_eq_some_iff.mp found
    exact ((mem b').mp (by simp)).symm

namespace BucketArray

variable {array array' : BucketArray K V} {index cell : Nat} {bucket : Bucket}

/-- All links, each as a bucket and the cell of the bucket behind it. -/
def links (array : BucketArray K V) : List (Bucket × Nat) :=
  (List.range array.size).flatMap fun index =>
    ((array.chainAt index).trail index).zip (array.chainAt index).cells

/-- The cell of the bucket that is linked behind another. -/
def next? (array : BucketArray K V) (bucket : Bucket) : Option Nat :=
  array.links.lookup bucket

/-- The buckets that the links lead over, at most `steps` of them. -/
def follow (array : BucketArray K V) : (steps : Nat) → Bucket → List Bucket
  | 0, bucket => [bucket]
  | steps + 1, bucket =>
    bucket :: match array.next? bucket with
      | none => []
      | some cell => array.follow steps (.overflow cell)

/-- There is an overflow bucket in the cell. -/
def InUse (array : BucketArray K V) (cell : Nat) : Prop :=
  array.vacant ≤ cell ∧ cell < array.vacant + array.linked

/-- The cells of all chains. -/
def cells (array : BucketArray K V) : List Nat :=
  (List.range array.size).flatMap fun index => (array.chainAt index).cells

/-- The chains have the cells in use among them, each in one place. -/
def Tiled (array : BucketArray K V) : Prop :=
  array.cells.Perm (List.range' array.vacant array.linked)

/-- The first `taken` cells that an arena hands out which had `spare` vacant cells at first: these
from the top down, and new ones after them. -/
def handedOut (spare taken : Nat) : List Nat :=
  (List.range taken).map fun n => if n < spare then spare - n - 1 else n

/-- Since the array had no overflow buckets, and `spare` vacant cells, each one was linked behind the
last bucket of its chain: the cells of a chain are in the order in which they were handed out. -/
structure OrderedFrom (spare : Nat) (array : BucketArray K V) : Prop where
  left : array.vacant = spare - array.linked
  sorted : ∀ index < array.size,
    (array.chainAt index).cells.Sublist (handedOut spare array.linked)

def InOrder (array : BucketArray K V) : Prop :=
  ∃ spare, array.OrderedFrom spare

/-- What the links between the buckets of an array come to. -/
structure WellLinked (array : BucketArray K V) : Prop where
  /-- However many steps are allowed, the links from a primary bucket end with its chain. -/
  ends : ∀ index < array.size, ∀ steps, (array.chainAt index).cells.length ≤ steps →
    array.follow steps (.primary index) = (array.chainAt index).trail index
  once : ∀ index < array.size, ((array.chainAt index).trail index).Nodup
  apart : ∀ i < array.size, ∀ j < array.size, i ≠ j →
    ((array.chainAt i).trail i).Disjoint ((array.chainAt j).trail j)
  owned : ∀ cell, array.InUse cell →
    ∃! index, index < array.size ∧ cell ∈ (array.chainAt index).cells
  resolves : ∀ bucket cell, array.next? bucket = some cell → array.InUse cell
  total : ((List.range array.size).map fun i => (array.chainAt i).depth - 1).sum = array.linked

theorem mem_cells : cell ∈ array.cells ↔ ∃ i < array.size, cell ∈ (array.chainAt i).cells := by
  simp [cells, List.mem_flatMap]

theorem mem_links : (bucket, cell) ∈ array.links ↔ ∃ i < array.size, ∃ k : Nat,
    ((array.chainAt i).trail i)[k]? = some bucket ∧ (array.chainAt i).cells[k]? = some cell := by
  unfold links
  rw [List.mem_flatMap]
  simp only [List.mem_range, List.mem_iff_getElem? (a := (bucket, cell)),
    List.getElem?_zip_eq_some]

namespace Tiled

theorem mem_cells (tiled : array.Tiled) : cell ∈ array.cells ↔ array.InUse cell := by
  rw [tiled.mem_iff, List.mem_range'_1]
  exact Iff.rfl

theorem chains_nodup (tiled : array.Tiled) :
    (∀ i < array.size, (array.chainAt i).cells.Nodup) ∧
    ∀ i < array.size, ∀ j < array.size, i ≠ j →
      (array.chainAt i).cells.Disjoint (array.chainAt j).cells := by
  have all : array.cells.Nodup := tiled.nodup_iff.mpr List.nodup_range'
  obtain ⟨each, apart⟩ := List.nodup_flatMap.mp all
  refine ⟨fun i bound => each i (List.mem_range.mpr bound), fun i bound j bound' ne => ?_⟩
  have symm : Std.Symm (Function.onFun List.Disjoint fun i => (array.chainAt i).cells) :=
    ⟨fun _ _ h => List.Disjoint.symm h⟩
  exact apart.forall (List.mem_range.mpr bound) (List.mem_range.mpr bound') ne

theorem once (tiled : array.Tiled) (bound : index < array.size) :
    ((array.chainAt index).trail index).Nodup := by
  refine List.nodup_cons.mpr ⟨by simp, ?_⟩
  exact (tiled.chains_nodup.1 index bound).map fun _ _ => Bucket.overflow.inj

theorem apart (tiled : array.Tiled) {i j : Nat} (bound : i < array.size) (bound' : j < array.size)
    (ne : i ≠ j) : ((array.chainAt i).trail i).Disjoint ((array.chainAt j).trail j) := by
  rintro (index | cell) mem mem'
  · simp only [Chain.trail, List.mem_cons, Bucket.primary.injEq, List.mem_map, reduceCtorEq,
      and_false, exists_false, or_false] at mem mem'
    exact ne (mem.symm.trans mem')
  · simp only [Chain.trail, List.mem_cons, reduceCtorEq, List.mem_map, Bucket.overflow.injEq,
      exists_eq_right, false_or] at mem mem'
    exact tiled.chains_nodup.2 i bound j bound' ne mem mem'

/-- The bucket at place `k` of a chain leads to the overflow bucket at place `k` of its cells. -/
theorem next?_eq (tiled : array.Tiled) (bound : index < array.size) {k : Nat}
    (here : ((array.chainAt index).trail index)[k]? = some bucket) :
    array.next? bucket = (array.chainAt index).cells[k]? := by
  apply lookup_eq_of_mem_iff
  intro cell
  rw [mem_links]
  constructor
  · rintro ⟨i, bound', k', there, found⟩
    obtain rfl : i = index := by
      by_contra ne
      exact tiled.apart bound' bound ne (List.mem_of_getElem? there) (List.mem_of_getElem? here)
    obtain ⟨lt, rfl⟩ := List.getElem?_eq_some_iff.mp there
    rwa [(List.getElem?_inj lt (tiled.once bound)).mp (there.trans here.symm)] at found
  · exact fun found => ⟨index, bound, k, here, found⟩

theorem follow_eq (tiled : array.Tiled) (bound : index < array.size) (steps : Nat) :
    ∀ {k : Nat} {bucket : Bucket}, ((array.chainAt index).trail index)[k]? = some bucket →
      (array.chainAt index).cells.length ≤ k + steps →
      array.follow steps bucket = ((array.chainAt index).trail index).drop k := by
  have last {k : Nat} {bucket : Bucket}
      (here : ((array.chainAt index).trail index)[k]? = some bucket)
      (ends : (array.chainAt index).cells.length ≤ k) :
      [bucket] = ((array.chainAt index).trail index).drop k := by
    obtain ⟨lt, rfl⟩ := List.getElem?_eq_some_iff.mp here
    rw [List.drop_eq_getElem_cons lt, List.drop_eq_nil_of_le]
    rw [Chain.length_trail]
    omega
  induction steps with
  | zero => exact fun here enough => last here enough
  | succ steps ih =>
    intro k bucket here enough
    unfold follow
    rw [tiled.next?_eq bound here]
    cases found : (array.chainAt index).cells[k]? with
    | none => exact last here (List.getElem?_eq_none_iff.mp found)
    | some cell =>
      have next : ((array.chainAt index).trail index)[k + 1]? = some (.overflow cell) := by
        rw [Chain.trail_succ, found]
        rfl
      simp only
      obtain ⟨lt, rfl⟩ := List.getElem?_eq_some_iff.mp here
      rw [ih next (by omega), ← List.drop_eq_getElem_cons lt]

theorem wellLinked (tiled : array.Tiled) : array.WellLinked where
  ends index bound steps enough := by
    rw [tiled.follow_eq bound steps (k := 0) rfl (by omega), List.drop_zero]
  once _ := tiled.once
  apart _ bound _ bound' := tiled.apart bound bound'
  owned cell inUse := by
    obtain ⟨i, bound, mem⟩ := BucketArray.mem_cells.mp (tiled.mem_cells.mpr inUse)
    refine ⟨i, ⟨bound, mem⟩, ?_⟩
    rintro j ⟨bound', mem'⟩
    by_contra ne
    exact tiled.chains_nodup.2 j bound' i bound ne mem' mem
  resolves bucket cell found := by
    obtain ⟨before, after, split, _⟩ := List.lookup_eq_some_iff.mp found
    obtain ⟨i, bound, k, _, here⟩ := mem_links.mp (show (bucket, cell) ∈ array.links by simp [split])
    exact tiled.mem_cells.mp (BucketArray.mem_cells.mpr ⟨i, bound, List.mem_of_getElem? here⟩)
  total := by
    have total := tiled.length_eq
    rw [cells, List.length_flatMap, List.length_range'] at total
    simpa [Chain.depth] using total

end Tiled

/-- The cell that the next bucket takes is the next one handed out. -/
theorem handedOut_succ {spare : Nat} (left : array.vacant = spare - array.linked) :
    handedOut spare (array.linked + 1) = handedOut spare array.linked ++ [array.nextCell] := by
  unfold handedOut nextCell
  rw [List.range_succ, List.map_append, List.map_singleton, left]
  refine congrArg (fun cell => _ ++ [cell]) ?_
  split <;> split <;> omega

/-- No chain has an overflow bucket. -/
def Bare (array : BucketArray K V) : Prop :=
  array.linked = 0 ∧ ∀ i < array.size, (array.chainAt i).cells = []

theorem Bare.tiled (bare : array.Bare) : array.Tiled := by
  have none : array.cells = [] := by
    simpa [cells, List.flatMap_eq_nil_iff] using bare.2
  rw [Tiled, none, bare.1]
  exact .nil

theorem Bare.ordered (bare : array.Bare) : array.OrderedFrom array.vacant := by
  refine ⟨by rw [bare.1, Nat.sub_zero], fun i bound => ?_⟩
  rw [bare.2 i bound]
  exact List.nil_sublist _

theorem bare_unallocated : (unallocated : BucketArray K V).Bare :=
  ⟨rfl, fun _ bound => absurd bound (Nat.not_lt_zero _)⟩

theorem bare_ofExponent (exponent : Nat) : (ofExponent exponent : BucketArray K V).Bare :=
  ⟨rfl, fun i _ => by simp [Chain.empty]⟩

theorem bare_reset : array.reset.Bare :=
  ⟨rfl, fun i _ => by simp [Chain.empty]⟩

/-- The two arrays have the same buckets with the same links. -/
structure Alike (before after : BucketArray K V) : Prop where
  size : after.size = before.size
  vacant : after.vacant = before.vacant
  linked : after.linked = before.linked
  cells : ∀ i < before.size, (after.chainAt i).cells = (before.chainAt i).cells

theorem Alike.refl (array : BucketArray K V) : array.Alike array :=
  ⟨rfl, rfl, rfl, fun _ _ => rfl⟩

theorem Alike.trans {between : BucketArray K V} (first : array.Alike between)
    (second : between.Alike array') : array.Alike array' where
  size := second.size.trans first.size
  vacant := second.vacant.trans first.vacant
  linked := second.linked.trans first.linked
  cells i bound := (second.cells i (first.size ▸ bound)).trans (first.cells i bound)

theorem Alike.tiled (alike : array.Alike array') (tiled : array.Tiled) : array'.Tiled := by
  have same : array'.cells = array.cells := by
    unfold BucketArray.cells
    rw [alike.size, List.flatMap_def, List.flatMap_def]
    exact congrArg _ (List.map_congr_left fun i mem => alike.cells i (List.mem_range.mp mem))
  rw [Tiled, same, alike.vacant, alike.linked]
  exact tiled

theorem Alike.ordered {spare : Nat} (alike : array.Alike array')
    (ordered : array.OrderedFrom spare) : array'.OrderedFrom spare := by
  refine ⟨by rw [alike.vacant, alike.linked, ordered.left], fun i bound => ?_⟩
  rw [alike.size] at bound
  rw [alike.cells i bound, alike.linked]
  exact ordered.sorted i bound

theorem alike_modify {f : Chain K V → Chain K V} (same : ∀ chain, (f chain).cells = chain.cells) :
    array.Alike (array.modify index f) where
  size := size_modify _ _ _
  vacant := rfl
  linked := rfl
  cells i _ := by
    unfold chainAt modify
    rw [Array.getElem?_modify]
    split
    · cases array.chains[i]? with
      | none => rfl
      | some chain => exact same chain
    · rfl

theorem alike_setSlot {offset : Nat} {slot : Slot K V} :
    array.Alike (array.setSlot index offset slot) :=
  alike_modify fun _ => rfl

/-- An overflow bucket was linked behind the last bucket of chain `index`, in the next cell. -/
structure Extended (index : Nat) (before after : BucketArray K V) : Prop where
  bound : index < before.size
  size : after.size = before.size
  vacant : after.vacant = before.vacant - 1
  linked : after.linked = before.linked + 1
  here : (after.chainAt index).cells = (before.chainAt index).cells ++ [before.nextCell]
  others : ∀ i < before.size, i ≠ index → (after.chainAt i).cells = (before.chainAt i).cells

theorem extended_link (bound : index < array.size) : array.Extended index (array.link index) where
  bound := bound
  size := size_link _ _
  vacant := rfl
  linked := rfl
  here := by simp [chainAt_link bound, Chain.link]
  others i _ ne := by rw [chainAt_link bound, if_neg ne]

namespace Extended

theorem alike {between : BucketArray K V} (extended : array.Extended index between)
    (alike : between.Alike array') : array.Extended index array' where
  bound := extended.bound
  size := alike.size.trans extended.size
  vacant := alike.vacant.trans extended.vacant
  linked := alike.linked.trans extended.linked
  here := (alike.cells index (extended.size ▸ extended.bound)).trans extended.here
  others i bound ne := (alike.cells i (extended.size ▸ bound)).trans (extended.others i bound ne)

/-- The cell of the new bucket was not in use, and now it is. -/
theorem inUse (extended : array.Extended index array') : ¬ array.InUse array.nextCell ∧
    ∀ other, array'.InUse other ↔ other = array.nextCell ∨ array.InUse other := by
  have vacant := extended.vacant
  have linked := extended.linked
  unfold InUse nextCell
  constructor
  · split <;> omega
  · intro other
    split <;> omega

theorem cells_perm (extended : array.Extended index array') :
    array'.cells.Perm (array.nextCell :: array.cells) := by
  obtain ⟨rest, before, after⟩ := flatMap_range_update (List.nodup_singleton index)
    (fun i mem => List.mem_singleton.mp mem ▸ extended.bound)
    (f := fun i => (array.chainAt i).cells) (g := fun i => (array'.chainAt i).cells) <| by
      intro i ne
      by_cases bound : i < array.size
      · exact (extended.others i bound (by simpa using ne)).symm
      · rw [chainAt_of_size_le (Nat.le_of_not_lt bound),
          chainAt_of_size_le (extended.size ▸ Nat.le_of_not_lt bound)]
  simp only [List.flatMap_cons, List.flatMap_nil, List.append_nil, extended.here] at before after
  unfold BucketArray.cells
  rw [extended.size]
  refine after.trans (.trans ?_ (before.symm.cons _))
  exact (List.perm_append_singleton _ _).append_right rest

/-- The new bucket is in one chain, and all others are where they were. -/
theorem tiled (extended : array.Extended index array') (tiled : array.Tiled) : array'.Tiled := by
  obtain ⟨unused, inUse⟩ := extended.inUse
  have perm := extended.cells_perm
  have fresh : array.nextCell ∉ array.cells := fun mem => unused (tiled.mem_cells.mp mem)
  have nodup : array.cells.Nodup := tiled.nodup_iff.mpr List.nodup_range'
  refine (List.perm_ext_iff_of_nodup (perm.nodup_iff.mpr (nodup.cons fresh))
    List.nodup_range').mpr fun other => ?_
  rw [perm.mem_iff, List.mem_cons, tiled.mem_cells, ← inUse, List.mem_range'_1]
  exact Iff.rfl

/-- The new bucket is the last one handed out, and the last one of its chain. -/
theorem ordered {spare : Nat} (extended : array.Extended index array')
    (ordered : array.OrderedFrom spare) : array'.OrderedFrom spare := by
  refine ⟨by rw [extended.vacant, extended.linked, ordered.left, Nat.sub_sub], fun i bound => ?_⟩
  rw [extended.size] at bound
  rw [extended.linked, handedOut_succ ordered.left]
  by_cases here : i = index
  · rw [here, extended.here]
    exact (ordered.sorted index extended.bound).append (.refl _)
  · rw [extended.others i bound here]
    exact (ordered.sorted i bound).trans (List.sublist_append_left _ _)

/-- The links that there were stay as they are. -/
theorem extends_cells (extended : array.Extended index array') {i : Nat} (bound : i < array.size) :
    (array.chainAt i).cells <+: (array'.chainAt i).cells := by
  by_cases here : i = index
  · rw [here, extended.here]
    exact List.prefix_append _ _
  · rw [extended.others i bound here]

end Extended

/-- It holds of arrays without overflow buckets, and is kept by writes to the slots of an array and
by new links at the ends of its chains. -/
structure Lasting (holds : BucketArray K V → Prop) : Prop where
  bare : ∀ {array}, Bare array → holds array
  alike : ∀ {array array'}, Alike array array' → holds array → holds array'
  extended : ∀ {index array array'}, Extended index array array' → holds array → holds array'

theorem lasting_tiled : Lasting (Tiled : BucketArray K V → Prop) :=
  ⟨Bare.tiled, Alike.tiled, Extended.tiled⟩

theorem lasting_inOrder : Lasting (InOrder : BucketArray K V → Prop) where
  bare bare := ⟨_, bare.ordered⟩
  alike alike := Exists.imp fun _ => alike.ordered
  extended extended := Exists.imp fun _ => extended.ordered

end BucketArray

end GradualMap
