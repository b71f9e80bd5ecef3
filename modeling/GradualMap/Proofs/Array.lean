import GradualMap.Proofs.Chain

/-!
Arrays of chains, read chain by chain. Past its end an array reads as empty chains.
-/

namespace GradualMap

/-- Lists gathered over a range, where only some indices change. -/
theorem flatMap_range_update {α : Type} {n : Nat} {changed : List Nat} (nodup : changed.Nodup)
    (bound : ∀ i ∈ changed, i < n) {f g : Nat → List α} (same : ∀ j, j ∉ changed → f j = g j) :
    ∃ rest, ((List.range n).flatMap f).Perm (changed.flatMap f ++ rest) ∧
      ((List.range n).flatMap g).Perm (changed.flatMap g ++ rest) := by
  let others := (List.range n).filter fun i => !decide (i ∈ changed)
  have apart : (List.range n).Perm (changed ++ others) := by
    have here : ((List.range n).filter fun i => decide (i ∈ changed)).Perm changed := by
      rw [List.perm_ext_iff_of_nodup (List.nodup_range.filter _) nodup]
      intro i
      simpa using fun mem => bound i mem
    exact (List.filter_append_perm _ _).symm.trans (here.append_right _)
  have kept : others.flatMap g = others.flatMap f := by
    rw [List.flatMap_def, List.flatMap_def]
    refine congrArg _ (List.map_congr_left fun j mem => (same j ?_).symm)
    simpa using (List.mem_filter.mp mem).2
  refine ⟨others.flatMap f, ?_, ?_⟩
  · simpa using apart.flatMap_right f
  · simpa [kept] using apart.flatMap_right g

namespace BucketArray

variable {K V : Type} {array : BucketArray K V} {index : Nat}

def chainAt (array : BucketArray K V) (index : Nat) : Chain K V :=
  array.chains[index]?.getD .empty

def entries (array : BucketArray K V) : List (Entry K V) :=
  (List.range array.size).flatMap fun index => (array.chainAt index).entries

theorem getElem?_chains (bound : index < array.size) :
    array.chains[index]? = some (array.chainAt index) := by
  simp [chainAt, Array.getElem?_eq_getElem (show index < array.chains.size from bound)]

theorem fetch_eq (bound : index < array.size) : array.fetch index = .ok (array.chainAt index) := by
  simp [fetch, getElem?_chains bound]

theorem mem_chains {chain : Chain K V} :
    chain ∈ array.chains ↔ ∃ i < array.size, array.chainAt i = chain := by
  rw [Array.mem_iff_getElem?]
  constructor
  · rintro ⟨i, known⟩
    obtain ⟨bound, rfl⟩ := Array.getElem?_eq_some_iff.mp known
    exact ⟨i, bound, by simp [chainAt, known]⟩
  · rintro ⟨i, bound, rfl⟩
    exact ⟨i, getElem?_chains bound⟩

/-- All slots, chain by chain. -/
def slots (array : BucketArray K V) : List (Slot K V) :=
  array.chains.toList.flatMap Chain.slots

theorem mem_slots {slot : Slot K V} :
    slot ∈ array.slots ↔ ∃ i < array.size, slot ∈ (array.chainAt i).slots := by
  unfold slots
  rw [List.mem_flatMap]
  constructor
  · rintro ⟨chain, known, mem⟩
    obtain ⟨i, bound, rfl⟩ := mem_chains.mp (Array.mem_toList_iff.mp known)
    exact ⟨i, bound, mem⟩
  · rintro ⟨i, bound, mem⟩
    exact ⟨_, Array.mem_toList_iff.mpr (mem_chains.mpr ⟨i, bound, rfl⟩), mem⟩

theorem toList_chains : array.chains.toList = (List.range array.size).map array.chainAt := by
  apply List.ext_getElem
  · simp [size]
  · intro i bound _
    simp [chainAt, show i < array.chains.size by simpa using bound]

theorem entries_eq_live : array.entries = (Row.live array.slots).map (·.2) := by
  unfold slots
  rw [toList_chains, List.flatMap_map, Row.live, List.filterMap_flatMap, List.map_flatMap]
  rfl

theorem sublist_entries (bound : index < array.size) :
    (array.chainAt index).entries.Sublist array.entries :=
  List.sublist_flatten_of_mem (List.mem_map_of_mem (List.mem_range.mpr bound))

theorem chainAt_of_size_le (h : array.size ≤ index) : array.chainAt index = .empty := by
  simp [chainAt, Array.getElem?_eq_none (show array.chains.size ≤ index from h)]

theorem isEvacuated_eq (bound : index < array.size) :
    array.isEvacuated index = .ok (array.chainAt index).isEvacuated := by
  simp [isEvacuated, fetch_eq bound, Functor.map, Except.map]

theorem wrap_eq (pos : 0 < array.size) : array.wrap index = .ok (index % array.size) := by
  simp [wrap, Nat.ne_of_gt pos]

@[simp] theorem chainAt_ofExponent (exponent : Nat) :
    (ofExponent exponent : BucketArray K V).chainAt index = .empty := by
  unfold chainAt ofExponent
  rw [Array.getElem?_replicate]
  split <;> rfl

@[simp] theorem chainAt_reset : array.reset.chainAt index = .empty := by
  unfold chainAt reset
  rw [Array.getElem?_replicate]
  split <;> rfl

@[simp] theorem chainAt_unallocated : (unallocated : BucketArray K V).chainAt index = .empty :=
  rfl

theorem chainAt_modify (bound : index < array.size) (f : Chain K V → Chain K V) (i : Nat) :
    (array.modify index f).chainAt i =
      if i = index then f (array.chainAt index) else array.chainAt i := by
  unfold modify
  rw [chainAt, Array.getElem?_modify]
  split
  · rename_i same
    rw [← same, if_pos rfl, getElem?_chains bound]
    rfl
  · rename_i differ
    rw [if_neg (Ne.symm differ)]
    rfl

theorem chainAt_setSlot (bound : index < array.size) (offset : Nat) (slot : Slot K V) (i : Nat) :
    (array.setSlot index offset slot).chainAt i =
      if i = index then (array.chainAt index).set offset slot else array.chainAt i :=
  chainAt_modify bound _ i

theorem chainAt_modify_setSlot (bound : index < array.size) (offset : Nat) (slot : Slot K V)
    (f : Chain K V → Chain K V) (i : Nat) :
    ((array.setSlot index offset slot).modify index f).chainAt i =
      if i = index then f ((array.chainAt index).set offset slot) else array.chainAt i := by
  rw [chainAt_modify (by simpa using bound), chainAt_setSlot bound, chainAt_setSlot bound,
    if_pos rfl]
  split <;> rfl

theorem chainAt_link (bound : index < array.size) (i : Nat) :
    (array.link index).chainAt i =
      if i = index then (array.chainAt index).link array.nextCell else array.chainAt i :=
  chainAt_modify bound _ i

theorem mem_entries {entry : Entry K V} :
    entry ∈ array.entries ↔ ∃ i < array.size, entry ∈ (array.chainAt i).entries := by
  simp [entries, List.mem_flatMap]

/-- The entries of some chains apart from those of the others. -/
theorem entries_update_of {array' : BucketArray K V} (changed : List Nat) (nodup : changed.Nodup)
    (bound : ∀ i ∈ changed, i < array.size) (size : array'.size = array.size)
    (same : ∀ i, i ∉ changed → array'.chainAt i = array.chainAt i) :
    ∃ rest, array.entries.Perm (changed.flatMap (fun i => (array.chainAt i).entries) ++ rest) ∧
      array'.entries.Perm (changed.flatMap (fun i => (array'.chainAt i).entries) ++ rest) := by
  unfold entries
  rw [size]
  exact flatMap_range_update nodup bound fun i ne => by rw [same i ne]

theorem entries_update {array' : BucketArray K V} (bound : index < array.size)
    (size : array'.size = array.size)
    (same : ∀ i, i ≠ index → array'.chainAt i = array.chainAt i) :
    ∃ rest, array.entries.Perm ((array.chainAt index).entries ++ rest) ∧
      array'.entries.Perm ((array'.chainAt index).entries ++ rest) := by
  simpa using entries_update_of [index] (by simp) (by simpa using bound) size
    (by simpa using same)

theorem entries_eq_nil (h : ∀ i < array.size, (array.chainAt i).entries = []) :
    array.entries = [] := by
  simpa [entries, List.flatMap_eq_nil_iff] using h

@[simp] theorem entries_ofExponent (exponent : Nat) :
    (ofExponent exponent : BucketArray K V).entries = [] :=
  entries_eq_nil fun i _ => by simp

@[simp] theorem entries_reset : array.reset.entries = [] :=
  entries_eq_nil fun i _ => by simp

@[simp] theorem entries_unallocated : (unallocated : BucketArray K V).entries = [] :=
  rfl

end BucketArray

end GradualMap
