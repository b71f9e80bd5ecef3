import GradualMap.Proofs.Dictionary

/-!
Keys that are not the same as themselves. Next to the dictionary of all other keys, a map keeps a
heap of entries that no key leads to: each insert adds one, and only a call that goes over all
entries changes one or drops it.
-/

namespace GradualMap

open GradualMap.Action

variable {K V δ ρ : Type} {reading : Reading K} {replaces : Bool} {scheme : KeyScheme K δ}
  {key : K} {entry : Entry K V} {entries rest : List (Entry K V)}

structure Contents (K V : Type) where
  known : List (Entry K V)
  strays : List (Entry K V)

/-- A dictionary of the keys that are the same as themselves, and a multiset of the other entries. A
stray key is never found, and leaves all entries as they are but that an insert adds one. -/
def contents (reading : Reading K) (replaces : Bool) : Store (Contents K V) K V where
  Has state entries :=
    (dictionary reading replaces).Has state.known (entries.filter (·.isKnown reading)) ∧
      state.strays.Perm (entries.filter (!·.isKnown reading))
  empty := ⟨[], []⟩
  find key state :=
    if reading.same key key then (dictionary reading replaces).find key state.known else none
  write key value state :=
    if reading.same key key then
      { state with known := (dictionary reading replaces).write key value state.known }
    else { state with strays := { key, value } :: state.strays }
  amend key f state :=
    if reading.same key key then
      { state with known := (dictionary reading replaces).amend key f state.known }
    else state
  erase key state :=
    if reading.same key key then
      { state with known := (dictionary reading replaces).erase key state.known }
    else state

/-- A known entry is kept in the dictionary. -/
theorem filter_known (entry : Entry K V) (rest : List (Entry K V))
    (known : reading.same entry.key entry.key = true) :
    (entry :: rest).filter (·.isKnown reading) = entry :: rest.filter (·.isKnown reading) ∧
      (entry :: rest).filter (!·.isKnown reading) = rest.filter (!·.isKnown reading) := by
  simp [Entry.isKnown, known]

theorem filter_stray (entry : Entry K V) (rest : List (Entry K V))
    (stray : reading.same entry.key entry.key = false) :
    (entry :: rest).filter (·.isKnown reading) = rest.filter (·.isKnown reading) ∧
      (entry :: rest).filter (!·.isKnown reading) = entry :: rest.filter (!·.isKnown reading) := by
  simp [Entry.isKnown, stray]

theorem contents_lawful (coherent : reading.Coherent) (replaces : Bool) :
    (contents (V := V) reading replaces).Lawful reading replaces where
  perm has all := ⟨(dictionary_lawful coherent replaces).perm has.1 (all.filter _),
    has.2.trans (all.filter _)⟩
  empty := ⟨(dictionary_lawful coherent replaces).empty, .refl _⟩
  found {state key entry rest} has same := by
    obtain ⟨self, known⟩ := coherent.straysApart _ _ same
    obtain ⟨has, strays⟩ := has
    rw [(filter_known entry rest known).1] at has
    rw [(filter_known entry rest known).2] at strays
    obtain ⟨find, write, amend, erase⟩ := (dictionary_lawful coherent replaces).found has same
    simp only [contents, self, if_true]
    refine ⟨find, fun value => ?_, fun f => ?_, erase, strays⟩
    · have rekeyed := filter_known { key := if replaces then key else entry.key, value } rest (by
        cases replaces
        · exact known
        · exact self)
      rw [rekeyed.1, rekeyed.2]
      exact ⟨write value, strays⟩
    · have amended := filter_known { entry with value := f entry.value } rest known
      rw [amended.1, amended.2]
      exact ⟨amend f, strays⟩
  missing {state key entries} has absent := by
    obtain ⟨has, strays⟩ := has
    by_cases self : reading.same key key = true
    · obtain ⟨find, write, amend, erase⟩ := (dictionary_lawful coherent replaces).missing has
        fun entry mem => absent entry (List.mem_of_mem_filter mem)
      simp only [contents, self, if_true]
      refine ⟨find, fun value => ?_, fun f => ⟨amend f, strays⟩, erase, strays⟩
      have entered := filter_known { key, value } entries self
      rw [entered.1, entered.2]
      exact ⟨write value, strays⟩
    · rw [Bool.not_eq_true] at self
      simp only [contents, self, Bool.false_eq_true, if_false]
      refine ⟨trivial, fun value => ?_, fun f => ⟨has, strays⟩, has, strays⟩
      have entered := filter_stray { key, value } entries self
      rw [entered.1, entered.2]
      exact ⟨has, strays.cons _⟩
  renewed {state entries entries'} has keys := by
    have known := keys.filter fun key => reading.same key key
    rw [List.filter_map, List.filter_map] at known
    obtain ⟨state', has'⟩ := (dictionary_lawful coherent replaces).renewed has.1 known
    exact ⟨⟨state', _⟩, has', .refl _⟩

/-- A session over known and stray keys. Between two sizes of the table a stray sits wherever its
hash bytes, drawn anew with each doubling, have led it; the answers do not depend on that. -/
theorem session_with_strays (follows : scheme.Follows reading) (coherent : reading.Coherent)
    (origin : Origin) (calls : List (Call K V ρ)) (env : Env δ) (own : ρ) :
    Ends (session scheme origin calls) (env, own)
      (fun result s => ∃ state : Contents K V,
        (contents reading scheme.traits.replacesKey).Run calls (⟨[], []⟩, own) result.1
          (state, s.2) ∧
        result.2.table.entries.Perm (state.known ++ state.strays) ∧
        Distinct reading state.known ∧ (∀ entry ∈ state.known, entry.isKnown reading = true) ∧
        ∀ entry ∈ state.strays, reading.Stray entry.key)
      (fun failure _ => ∃ met, (reading.Refuses met ∨ Denied env.grants met) ∧
        failure = met.unhandled) := by
  refine (session_ends follows coherent (contents_lawful coherent _) origin calls env
    own).mono ?_ fun _ _ memory => memory
  rintro result s ⟨state, run, ⟨known, distinct⟩, strays⟩
  refine ⟨state, run, ?_, distinct.perm coherent known.symm, fun entry mem => ?_,
    fun entry mem => ?_⟩
  · exact ((known.append strays).trans (List.filter_append_perm _ _)).symm
  · exact (List.mem_filter.mp (known.mem_iff.mp mem)).2
  · have stray := (List.mem_filter.mp (strays.mem_iff.mp mem)).2
    rwa [Bool.not_eq_true'] at stray

/-- The same NaN again and again, and two zeros that are one key. -/
theorem session_with_strays_of_floats : ∃ calls : List (Call (Floating .binary64) Nat Nat),
    (session (Key.floating .binary64 {}) .empty calls (.ample {}, 0)).1.map (·.1) = .ok [
      .value? none, .value? (some 3), .pair? (some (⟨0x8000000000000000⟩, 4)), .done, .count 21,
      .value? none, .value? none, .count 21, .done, .count 3] ∧
    Ends (session (Key.floating .binary64 {}) .empty calls) (.ample {}, 0)
      (fun result s => ∃ state : Contents (Floating .binary64) Nat,
        (contents (Key.floatingReading .binary64 {}) true).Run calls (⟨[], []⟩, 0) result.1
          (state, s.2) ∧
        result.2.table.entries.Perm (state.known ++ state.strays) ∧
        Distinct (Key.floatingReading .binary64 {}) state.known ∧
        (∀ entry ∈ state.known, entry.isKnown (Key.floatingReading .binary64 {}) = true) ∧
        ∀ entry ∈ state.strays, (Key.floatingReading .binary64 {}).Stray entry.key)
      (fun failure _ => ∃ met, Denied (fun _ => true) met ∧ failure = met.unhandled) := by
  obtain ⟨calls, answers⟩ : ∃ calls : List (Call (Floating .binary64) Nat Nat),
      (session (Key.floating .binary64 {}) .empty calls (.ample {}, 0)).1.map (·.1) = .ok [
        .value? none, .value? (some 3), .pair? (some (⟨0x8000000000000000⟩, 4)), .done, .count 21,
        .value? none, .value? none, .count 21, .done, .count 3] :=
    ⟨[.insert ⟨0⟩ 3, .insert ⟨0x8000000000000000⟩ 4, .getPair ⟨0⟩,
      .extend ((List.range 20).map fun n => (⟨0x7ff8000000000000⟩, n)), .len,
      .get ⟨0x7ff8000000000000⟩, .remove ⟨0x7ff8000000000000⟩, .len,
      .retain fun _ value own => ((value, value < 3), own), .len],
      by decide +kernel⟩
  refine ⟨calls, answers, (session_with_strays Key.floating_follows Key.floating_coherent .empty
    calls (.ample {}) 0).mono (fun _ _ kept => kept) ?_⟩
  rintro failure s ⟨met, refuses | denied, rfl⟩
  · exact absurd refuses Key.floating_total.not_refuses
  · exact ⟨met, denied, rfl⟩

end GradualMap
