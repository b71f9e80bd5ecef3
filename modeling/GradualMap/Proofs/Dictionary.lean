import GradualMap.Proofs.Keys
import GradualMap.Proofs.Simulation

/-!
A map is a dictionary: one entry for all keys that are the same, whatever array and chain it is in
and whatever resize is in flight. Calls are answered as a list of entries would answer them.
-/

namespace GradualMap

open GradualMap.Action

variable {K V δ ρ : Type} {reading : Reading K} {replaces : Bool} {scheme : KeyScheme K δ}
  {key : K} {entry : Entry K V} {state entries rest : List (Entry K V)}

/-- Whether a look-up can find the entry. -/
def Entry.isKnown (reading : Reading K) (entry : Entry K V) : Bool :=
  reading.same entry.key entry.key

/-- No two entries are for one key. -/
def Distinct (reading : Reading K) (entries : List (Entry K V)) : Prop :=
  entries.Pairwise fun a b => reading.same a.key b.key = false

/-- What a write leaves of an entry. -/
def Entry.rewritten (replaces : Bool) (key : K) (value : V) (entry : Entry K V) : Entry K V where
  key := if replaces then key else entry.key
  value := value

/-- A finite map from classes of keys to a stored key and a value, as the list of its entries. -/
def dictionary (reading : Reading K) (replaces : Bool) : Store (List (Entry K V)) K V where
  Has state entries := state.Perm entries ∧ Distinct reading entries
  empty := []
  find key state := state.find? fun entry => reading.same key entry.key
  write key value state :=
    if state.any fun entry => reading.same key entry.key then
      state.map fun entry =>
        if reading.same key entry.key then entry.rewritten replaces key value else entry
    else { key, value } :: state
  amend key f state := state.map fun entry =>
    if reading.same key entry.key then { entry with value := f entry.value } else entry
  erase key state := state.filter fun entry => !reading.same key entry.key

theorem Distinct.perm (coherent : reading.Coherent) (distinct : Distinct reading entries)
    (all : entries.Perm rest) : Distinct reading rest := by
  refine (all.pairwise_iff fun {a b} differ => ?_).mp distinct
  rw [Bool.eq_false_iff] at *
  exact fun same => differ (coherent.symm _ _ same)

theorem Distinct.of_keys {entries' : List (Entry K V)} (coherent : reading.Coherent)
    (distinct : Distinct reading entries)
    (keys : (entries'.map (·.key)).Subperm (entries.map (·.key))) : Distinct reading entries' := by
  obtain ⟨kept, all, part⟩ := keys
  have apart : (entries.map (·.key)).Pairwise fun a b => reading.same a b = false :=
    List.pairwise_map.mpr distinct
  refine List.pairwise_map.mp ((all.pairwise_iff fun {a b} differ => ?_).mp (apart.sublist part))
  rw [Bool.eq_false_iff] at *
  exact fun same => differ (coherent.symm _ _ same)

/-- The keys of the other entries are other keys. -/
theorem Distinct.others (coherent : reading.Coherent) (distinct : Distinct reading (entry :: rest))
    (same : reading.same key entry.key = true) :
    ∀ other ∈ rest, reading.same key other.key = false := by
  intro other mem
  have differ := (List.pairwise_cons.mp distinct).1 other mem
  rw [Bool.eq_false_iff] at *
  exact fun same' => differ (coherent.trans _ _ _ (coherent.symm _ _ same) same')

theorem Distinct.cons (distinct : Distinct reading rest)
    (others : ∀ other ∈ rest, reading.same entry.key other.key = false) :
    Distinct reading (entry :: rest) :=
  List.pairwise_cons.mpr ⟨others, distinct⟩

/-- An entry may be exchanged for another one of its key. -/
theorem Distinct.exchange {entries' : List (Entry K V)} {new : Entry K V}
    (coherent : reading.Coherent) (distinct : Distinct reading entries)
    (all : entries.Perm (entry :: rest)) (all' : entries'.Perm (new :: rest))
    (same : new.key = entry.key ∨ reading.same new.key entry.key = true) :
    Distinct reading entries' := by
  replace distinct := distinct.perm coherent all
  obtain ⟨apart, tail⟩ := List.pairwise_cons.mp distinct
  refine Distinct.perm coherent (Distinct.cons tail ?_) all'.symm
  rcases same with key | same
  · rw [key]
    exact apart
  · exact distinct.others coherent same

theorem dictionary_lawful (coherent : reading.Coherent) (replaces : Bool) :
    (dictionary (V := V) reading replaces).Lawful reading replaces where
  perm has all := ⟨has.1.trans all, has.2.perm coherent all⟩
  empty := ⟨.refl _, .nil⟩
  found {state key entry rest} has same := by
    obtain ⟨all, distinct⟩ := has
    have others := distinct.others coherent same
    have tail := (List.pairwise_cons.mp distinct).2
    have mem : entry ∈ state := all.mem_iff.mpr (.head _)
    have changed (g : Entry K V → Entry K V) : (state.map fun entry =>
        if reading.same key entry.key then g entry else entry).Perm (g entry :: rest) := by
      refine (all.map _).trans (.of_eq ?_)
      rw [List.map_cons, if_pos same]
      refine congrArg _ ((List.map_congr_left fun other mem => ?_).trans (List.map_id rest))
      rw [others other mem]
      rfl
    refine ⟨?_, fun value => ⟨?_, ?_⟩, fun f => ⟨changed _, ?_⟩, ?_, tail⟩
    · change state.find? (fun entry => reading.same key entry.key) = some entry
      cases found : state.find? fun entry => reading.same key entry.key with
      | none => exact absurd same (List.find?_eq_none.mp found entry mem)
      | some other =>
        have judged : reading.same key other.key = true := by simpa using List.find?_some found
        rcases List.mem_cons.mp (all.mem_iff.mp (List.mem_of_find?_eq_some found)) with rfl | mem
        · rfl
        · rw [others other mem] at judged
          cases judged
    · have present : state.any (fun entry => reading.same key entry.key) = true :=
        List.any_eq_true.mpr ⟨entry, mem, same⟩
      simp only [dictionary, present, if_true]
      exact changed _
    · refine tail.cons fun other mem => ?_
      simp only
      split
      · exact others other mem
      · exact (List.pairwise_cons.mp distinct).1 other mem
    · exact tail.cons (List.pairwise_cons.mp distinct).1
    · refine (all.filter _).trans (.of_eq ?_)
      rw [List.filter_cons, same, if_neg (by simp)]
      exact List.filter_eq_self.mpr fun other mem => by rw [others other mem]; rfl
  missing {state key entries} has absent := by
    obtain ⟨all, distinct⟩ := has
    have absent' : ∀ entry ∈ state, reading.same key entry.key = false :=
      fun entry mem => absent entry (all.mem_iff.mp mem)
    have none : state.any (fun entry => reading.same key entry.key) = false :=
      List.any_eq_false.mpr fun entry mem => by rw [absent' entry mem]; exact Bool.false_ne_true
    refine ⟨?_, fun value => ⟨?_, distinct.cons absent⟩, fun f => ⟨?_, distinct⟩, ?_, distinct⟩
    · exact List.find?_eq_none.mpr fun entry mem => by
        rw [absent' entry mem]
        exact Bool.false_ne_true
    · simp only [dictionary, none, Bool.false_eq_true, if_false]
      exact all.cons _
    · refine .trans (.of_eq ?_) all
      refine (List.map_congr_left fun entry mem => ?_).trans (List.map_id state)
      rw [absent' entry mem]
      rfl
    · refine .trans (.of_eq ?_) all
      exact List.filter_eq_self.mpr fun entry mem => by rw [absent' entry mem]; rfl
  renewed has keys := ⟨_, .refl _, has.2.of_keys coherent keys.subperm⟩

/-- Every call of a session is answered as the dictionary answers it; only an array that there is no
memory for ends the session before. Under a reflexive scheme every key has a class of its own. -/
theorem session_as_dictionary (follows : scheme.Follows reading) (coherent : reading.Coherent)
    (total : reading.Total) (origin : Origin) (calls : List (Call K V ρ)) (env : Env δ) (own : ρ) :
    Ends (session scheme origin calls) (env, own)
      (fun result s => ∃ entries,
        (dictionary reading scheme.traits.replacesKey).Run calls ([], own) result.1
          (entries, s.2) ∧
        result.2.table.entries.Perm entries ∧ Distinct reading entries)
      (fun failure _ => ∃ met, Denied env.grants met ∧ failure = met.unhandled) := by
  refine (session_ends follows coherent (dictionary_lawful coherent _) origin calls env own).mono
    ?_ ?_
  · rintro result s ⟨entries, run, all, distinct⟩
    exact ⟨entries, run, all.symm, distinct.perm coherent all.symm⟩
  · rintro failure s ⟨met, refuses | denied, rfl⟩
    · exact absurd refuses total.not_refuses
    · exact ⟨met, denied, rfl⟩

/-- Over thirty entries, with a resize in flight. -/
theorem session_as_dictionary_of_words : ∃ calls : List (Call UInt64 Nat Nat),
    (session (Key.word {}) .empty calls (.ample {}, 8)).1.map (·.1) = .ok [.done,
      .value? (some 3), .value? none, .value 9, .value? (some 100), .pair? (some (7, 7)),
      .holds false, .value? (some 8), .done, .count 4, .pairs [(2, 3)], .value? none, .done,
      .count 0] ∧
    Ends (session (Key.word {}) .empty calls) (.ample {}, 8)
      (fun result s => ∃ entries,
        (dictionary (Key.wordReading {}) false).Run calls ([], 8) result.1 (entries, s.2) ∧
        result.2.table.entries.Perm entries ∧ Distinct (Key.wordReading {}) entries)
      (fun failure _ => ∃ met, Denied (fun _ => true) met ∧ failure = met.unhandled) := by
  obtain ⟨calls, answers⟩ : ∃ calls : List (Call UInt64 Nat Nat),
      (session (Key.word {}) .empty calls (.ample {}, 8)).1.map (·.1) = .ok [.done,
        .value? (some 3), .value? none, .value 9, .value? (some 100), .pair? (some (7, 7)),
        .holds false, .value? (some 8), .done, .count 4, .pairs [(2, 3)], .value? none, .done,
        .count 0] :=
    ⟨[.extend ((List.range 30).map fun n => (n.toUInt64, n)), .insert 3 100, .insert 30 30,
      .getOrInsert 50 (fun own => (own, own + 1)) (· + 1), .get 3, .removePair 7, .contains 7,
      .adjust 4 (· * 2), .retain fun key value own => ((value, key < 3 || key = 50), own + 1),
      .len, .sweep [fun value => value + 1], .get 4, .clear, .len], by decide +kernel⟩
  exact ⟨calls, answers, session_as_dictionary (Key.word_follows {}) (Key.word_coherent {})
    (Key.word_total {}) .empty calls (.ample {}) 8⟩

end GradualMap
