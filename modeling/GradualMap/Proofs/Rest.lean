import GradualMap.Proofs.Passage

/-!
Where a chain ends. Removals and evacuations retag slots in different ways, and all come to the same
tags: a slot is part of the empty rest exactly if no entry comes there or after it, so that a scan
that stops there misses nothing and passes no more slots than it must.
-/

namespace GradualMap

variable {K V δ : Type}

namespace Row

/-- The tags of a row say exactly where its last live slot is. -/
structure RestExact (row : List (Slot K V)) : Prop where
  rest_iff : ∀ i slot, row[i]? = some slot →
    (slot.tag = .emptyRest ↔ ∀ later ∈ row.drop i, later.live? = none)
  rest_onward : ∀ i slot, row[i]? = some slot → slot.tag = .emptyRest →
    ∀ later ∈ row.drop i, later.tag = .emptyRest
  live_after_hole : ∀ i slot, row[i]? = some slot → slot.tag = .emptyOne →
    ∃ later ∈ row.drop (i + 1), later.live? ≠ none

variable {row : List (Slot K V)}

/-- What follows for the slots after an empty one. -/
theorem restExact_of_iff (rest_iff : ∀ i slot, row[i]? = some slot →
    (slot.tag = .emptyRest ↔ ∀ later ∈ row.drop i, later.live? = none)) : RestExact row where
  rest_iff := rest_iff
  rest_onward i slot here rest later mem := by
    obtain ⟨j, bound, rfl⟩ := List.mem_iff_getElem.mp mem
    rw [List.getElem_drop]
    rw [List.length_drop] at bound
    apply (rest_iff (i + j) _ (List.getElem?_eq_getElem (by omega))).mpr
    intro last mem'
    rw [← List.drop_drop] at mem'
    exact (rest_iff i slot here).mp rest last (List.mem_of_mem_drop mem')
  live_after_hole i slot here hole := by
    obtain ⟨bound, rfl⟩ := List.getElem?_eq_some_iff.mp here
    by_contra none
    push Not at none
    have rest : row[i].tag = .emptyRest := by
      apply (rest_iff i _ here).mpr
      intro later mem
      rw [List.drop_eq_getElem_cons bound] at mem
      rcases List.mem_cons.mp mem with rfl | mem
      · exact Slot.live?_eq_none_of_isEmpty (by rw [hole]; rfl)
      · exact none later mem
    rw [hole] at rest
    cases rest

/-- A slot before the last live one is not tagged as rest. -/
theorem rest_iff_cons {head : Slot K V} (used : head.tag ≠ .emptyRest)
    (needed : ∃ later ∈ head :: row, later.live? ≠ none)
    (rest_iff : ∀ i slot, row[i]? = some slot →
      (slot.tag = .emptyRest ↔ ∀ later ∈ row.drop i, later.live? = none)) :
    ∀ i slot, (head :: row)[i]? = some slot →
      (slot.tag = .emptyRest ↔ ∀ later ∈ (head :: row).drop i, later.live? = none) := by
  intro i slot here
  cases i with
  | zero =>
    obtain rfl : head = slot := by simpa using here
    obtain ⟨later, mem, live⟩ := needed
    exact iff_of_false used fun none => live (none later mem)
  | succ i => exact rest_iff i slot here

theorem Tidy.rest_iff (tidy : Tidy True row) : ∀ i slot, row[i]? = some slot →
    (slot.tag = .emptyRest ↔ ∀ later ∈ row.drop i, later.live? = none) := by
  induction tidy with
  | spare n =>
    intro i slot here
    obtain rfl := List.eq_of_mem_replicate (List.mem_of_getElem? here)
    refine iff_of_true rfl fun later mem => ?_
    rw [List.eq_of_mem_replicate (List.mem_of_mem_drop mem)]
    rfl
  | full h tidy ih =>
    obtain ⟨top, entry, _, rfl⟩ := h
    exact rest_iff_cons (by simp [Slot.full]) ⟨_, .head _, by simp⟩ ih
  | @hole rest tidy needed ih =>
    refine rest_iff_cons (by simp [Slot.hole]) ?_ ih
    obtain ⟨item, mem⟩ := List.exists_mem_of_ne_nil _ (needed trivial)
    obtain ⟨slot, known, live⟩ := List.mem_filterMap.mp mem
    exact ⟨slot, .tail _ known, by simp [live]⟩

theorem Tidy.restExact (tidy : Tidy True row) : RestExact row :=
  restExact_of_iff tidy.rest_iff

end Row

/-- Whatever calls a map has seen, the tags are exact in every chain that is read: those of the
current array, and those of the old one that no evacuation has reached. -/
theorem tags_exact {scheme : KeyScheme K δ} {map : Map K V} (reachable : Reachable scheme map) :
    (∀ chain ∈ map.table.current.chains, Row.RestExact chain.slots) ∧
    ∀ resize, map.table.resize = some resize → ∀ chain ∈ resize.array.chains,
      chain.isEvacuated = false → Row.RestExact chain.slots := by
  have sound := reachable.intact.1
  constructor
  · intro chain mem
    obtain ⟨i, bound, rfl⟩ := BucketArray.mem_chains.mp mem
    exact (sound.chains i bound).tidy.restExact
  · intro resize growing chain mem waits
    obtain ⟨i, bound, rfl⟩ := BucketArray.mem_chains.mp mem
    exact (sound.waiting growing bound waits).sound.tidy.restExact

/-- Chains of both arrays are read amid a doubling. -/
theorem tags_exact_amid_doubling : ∃ map : Map UInt64 Nat,
    map.table.exponent = 3 ∧ map.table.resize.isSome = true ∧ map.table.count = 27 ∧
    (∀ chain ∈ map.table.current.chains, Row.RestExact chain.slots) ∧
    ∀ resize, map.table.resize = some resize → ∀ chain ∈ resize.array.chains,
      chain.isEvacuated = false → Row.RestExact chain.slots := by
  obtain ⟨map, grown, exponent, growing, count⟩ := reachable_amid_doubling
  exact ⟨map, exponent, growing, count, tags_exact grown⟩

end GradualMap
