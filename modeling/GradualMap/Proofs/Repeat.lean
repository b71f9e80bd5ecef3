import GradualMap.Proofs.Tour

/-!
How often a cursor shows a key. A seed drawn anew can put a key that was shown into a class that is
still ahead, and a map draws one only when its last entry goes: so each time the map runs empty
gives a key one more chance, and nothing else does.
-/

namespace GradualMap

open GradualMap.Action

variable {K V δ : Type} {reading : Reading K} {exact : Prop} {scheme : KeyScheme K δ}
  {table : Table K V} {stages : List (Stage K V)} {map : Map K V} {cursor : Cursor K V} {key : K}
  {seed : UInt64}

namespace Cursor

/-- How often the class of the key is still to be collected. -/
def due (reading : Reading K) (seed : UInt64) (cursor : Cursor K V) (key : K) : Nat :=
  match reading.code key seed with
  | .ok hash => cursor.ahead.count (bucketIndex hash cursor.exponent)
  | .error _ => 0

/-- How often the key may still be shown while the seed stands. -/
def chances (reading : Reading K) (seed : UInt64) (cursor : Cursor K V) (key : K) : Nat :=
  (waiting cursor.pending).countP (reading.same key) + cursor.due reading seed key

theorem due_of_code {hash : UInt64} (code : reading.code key seed = .ok hash) :
    cursor.due reading seed key = cursor.ahead.count (bucketIndex hash cursor.exponent) := by
  simp [due, code]

theorem due_le_one (reading : Reading K) (seed : UInt64) (key : K) (nodup : cursor.ahead.Nodup) :
    cursor.due reading seed key ≤ 1 := by
  unfold due
  split
  · exact List.nodup_iff_count_le_one.mp nodup _
  · exact Nat.zero_le 1

/-- A class that is collected holds the key at most once, and was ahead if it does. -/
theorem countP_collected_le (coherent : reading.Coherent)
    (sound : table.Sound (reading.rules exact)) (distinct : Distinct reading table.entries)
    (stands : Stands reading table cursor) {left : Nat} (more : cursor.indicesLeft = left + 1) :
    (waiting ((gathered reading table cursor cursor.nextIndex).map (queued reading))).countP
        (reading.same key) + (cursor.turned left).due reading table.seed key ≤
      cursor.due reading table.seed key := by
  have ahead := ahead_turned stands.bound more
  obtain ⟨rest, all⟩ := gathered_perm sound cursor cursor.nextIndex
  have apart := (List.pairwise_append.mp (distinct.perm coherent all.symm)).1
  rw [waiting_queued]
  -- A key of this class has used up the time it was ahead; for any other one nothing is queued.
  by_cases here : ∃ entry ∈ gathered reading table cursor cursor.nextIndex,
      entry.isKnown reading = true ∧ reading.same key entry.key = true
  · obtain ⟨entry, found, known, same⟩ := here
    have stored := all.mem_iff.mp (List.mem_append_left _ found)
    obtain ⟨hash, code⟩ := code_of_mem sound stored known
    have place := ((mem_gathered sound stands.grown stands.bound known code).mp found).2
    have once := Distinct.countP_eq_one coherent
      (apart.sublist (List.filter_sublist (p := (·.isKnown reading))))
      (List.mem_filter.mpr ⟨found, known⟩) same
    have code' := (coherent.alike _ _ table.seed same).trans code
    rw [List.countP_map, due_of_code code', due_of_code code']
    change List.countP (fun entry : Entry K V => reading.same key entry.key) _ +
      (cursor.turned left).ahead.count (bucketIndex hash cursor.exponent) ≤ _
    rw [once, place, ahead, List.count_cons_self]
    omega
  · have none : ((((gathered reading table cursor cursor.nextIndex).filter
        (·.isKnown reading)).map (·.key)).countP (reading.same key)) = 0 := by
      rw [List.countP_eq_zero]
      intro other mem same
      obtain ⟨entry, chosen, rfl⟩ := List.mem_map.mp mem
      obtain ⟨found, known⟩ := List.mem_filter.mp chosen
      exact here ⟨entry, found, known, same⟩
    rw [none, Nat.zero_add]
    unfold due
    rw [ahead]
    split
    · exact (List.sublist_cons_self _ _).count_le _
    · exact Nat.le_refl 0

/-- What a call shows of a key it takes from the key's chances. -/
theorem Strides.chances_le (coherent : reading.Coherent)
    (sound : table.Sound (reading.rules exact)) (distinct : Distinct reading table.entries)
    {before after : Cursor K V} {answer : Option (K × V)} (stands : Stands reading table before)
    (strides : Strides reading table before answer after) (key : K) :
    (shownBy reading answer).countP (reading.same key) + after.chances reading table.seed key ≤
      before.chances reading table.seed key := by
  induction strides with
  | ended => simp [shownBy]
  | @drop cursor _ _ sought rest _ queue _ _ ih =>
    refine Nat.le_trans (ih (stands.dequeue queue)) (Nat.add_le_add_right ?_ _)
    rw [queue]
    exact (List.sublist_cons_self sought (waiting rest)).countP_le
  | @found cursor sought entry rest _ queue _ same =>
    -- The key that is shown need not be the one that was queued, but counts for the same keys.
    have alike : reading.same key entry.key = reading.same key sought := by
      rw [Bool.eq_iff_iff]
      constructor
      · exact fun same' => coherent.trans _ _ _ same' (coherent.symm _ _ same)
      · exact fun same' => coherent.trans _ _ _ same' same
    unfold chances
    rw [queue, shownBy, if_pos (coherent.straysApart _ _ same).2, ← Nat.add_assoc]
    change _ + List.countP _ (waiting rest) + _ ≤ (sought :: waiting rest).countP _ + _
    rw [List.countP_singleton, List.countP_cons, alike, Nat.add_comm (ite _ _ _)]
    exact Nat.le_refl _
  | @copied cursor stray value rest _ queue =>
    have stray : reading.same stray stray = false := stands.fits (.copied stray value)
      (queue ▸ .head _)
    unfold chances
    rw [queue, shownBy, stray]
    simp [waiting, due, ahead]
  | @collect cursor _ _ left _ idle more _ ih =>
    refine Nat.le_trans (ih (stands.collected sound idle more)) ?_
    unfold chances
    change (waiting (cursor.pending ++ _)).countP _ + _ ≤ _
    rw [idle, List.nil_append]
    change _ ≤ 0 + _
    rw [Nat.zero_add]
    exact countP_collected_le coherent sound distinct stands more
  | finish => simp [shownBy, chances, due, ahead]

end Cursor

/-- How often a stage left the map empty that was not so before. -/
def emptied : List (Stage K V) → Nat
  | after :: before :: stages =>
    (if !before.map.isEmpty && after.map.isEmpty then 1 else 0) + emptied (before :: stages)
  | _ => 0

theorem Tour.latest (tour : Tour scheme stages map cursor) :
    ∃ answer earlier, stages = { map, answer } :: earlier := by
  cases tour with
  | start => exact ⟨none, _, rfl⟩
  | call => exact ⟨none, _, rfl⟩
  | step => exact ⟨_, _, rfl⟩

theorem Tour.emptied_cons (tour : Tour scheme stages map cursor) (after : Map K V)
    (answer : Option (Option (K × V))) : emptied ({ map := after, answer } :: stages) =
      (if !map.isEmpty && after.isEmpty then 1 else 0) + emptied stages := by
  obtain ⟨_, _, rfl⟩ := tour.latest
  rfl

theorem Map.Sound.isEmpty_iff {rules : Rules K} (sound : map.Sound rules) :
    map.isEmpty = true ↔ map.table.entries = [] := by
  rw [← sound.table.entries_eq_nil]
  simp [Map.isEmpty]

theorem countP_shownKeys (straysApart : reading.StraysApart) (stages : List (Stage K V)) (key : K) :
    (shownKeys reading stages).countP (reading.same key) =
      (yielded stages).countP fun entry => reading.same key entry.key := by
  unfold shownKeys
  rw [List.countP_map, List.countP_filter]
  refine List.countP_congr fun entry _ => ?_
  simp only [Function.comp_apply, Bool.and_eq_true, and_iff_left_iff_imp]
  exact fun same => (straysApart _ _ same).2

/-- A call that does not empty the map leaves each key its chances; one that does gives back at most
the one that was spent. -/
theorem Map.Onward.chances_le {after : Map K V} (onward : Map.Onward map after)
    (sound : map.Sound (reading.rules exact)) (sound' : after.Sound (reading.rules exact))
    (nodup : cursor.ahead.Nodup) (key : K) :
    cursor.chances reading after.table.seed key ≤ cursor.chances reading map.table.seed key +
      if !map.isEmpty && after.isEmpty then 1 else 0 := by
  rcases onward.seed with same | ⟨stored, gone⟩
  · rw [same]
    exact Nat.le_add_right _ _
  · have filled : map.isEmpty = false := Bool.eq_false_iff.mpr (mt sound.isEmpty_iff.mp stored)
    rw [filled, sound'.isEmpty_iff.mpr gone]
    have once := Cursor.due_le_one reading after.table.seed key nodup
    unfold Cursor.chances
    simp only [Bool.not_false, Bool.and_self, if_true]
    omega

theorem Tour.chances_le (follows : scheme.Follows reading) (coherent : reading.Coherent)
    (tour : Tour scheme stages map cursor) (key : K) :
    (shownKeys reading stages).countP (reading.same key) +
      cursor.chances reading map.table.seed key ≤ 1 + emptied stages := by
  induction tour with
  | @start map cursor env reachable run =>
    obtain ⟨_, stands, idle, _⟩ := (Cursor.ofMap_yields reading map env).of_ok run
    have once := Cursor.due_le_one reading map.table.seed key stands.nodup
    rw [Cursor.chances, idle]
    simpa [shownKeys, yielded, Cursor.waiting, emptied] using once
  | @call stages before after cursor _ _ _ _ _ _ call tour run calm ih =>
    have sound : before.Sound (reading.rules True) := tour.reachable.sound follows
    have sound' : after.Sound (reading.rules True) :=
      (Reachable.called call tour.reachable run calm).sound follows
    have more := (call.onward follows sound run calm).chances_le sound sound'
      (tour.guided follows coherent).stands.nodup key
    rw [tour.emptied_cons]
    change (shownKeys reading stages).countP _ + _ ≤ _
    omega
  | @step stages map before after _ _ answer tour run ih =>
    have sound : map.Sound (reading.rules True) := tour.reachable.sound follows
    have guided := tour.guided follows coherent
    obtain ⟨_, all, distinct⟩ := tour.reachable.has follows coherent
      (dictionary_lawful coherent scheme.traits.replacesKey)
    have strides : Cursor.Strides reading map.table before answer after :=
      (Cursor.next_strides follows sound guided.mine guided.stands.fits _).answer run
    have fewer := strides.chances_le coherent sound.table distinct guided.stands key
    rw [tour.emptied_cons, shownKeys_cons, List.countP_append]
    simp only [Bool.not_and_self, Bool.false_eq_true, if_false, Nat.zero_add]
    omega

/-- A cursor shows a key at most once, and at most once more for each time that the map ran empty,
whatever the map is called with between the steps. -/
theorem tour_repeats_le_emptied (follows : scheme.Follows reading) (coherent : reading.Coherent)
    (tour : Tour scheme stages map cursor) (key : K) :
    (yielded stages).countP (fun entry => reading.same key entry.key) ≤ 1 + emptied stages := by
  rw [← countP_shownKeys coherent.straysApart]
  exact Nat.le_trans (Nat.le_add_right _ _) (tour.chances_le follows coherent key)

/-- A clear in the middle draws a seed that puts the key shown into the class that is left. -/
theorem tour_shows_key_again : (Key.word {}).Follows (Key.wordReading {}) ∧
    (Key.wordReading {}).Coherent ∧ (Key.wordReading {}).Total ∧
    ∃ (stages : List (Stage UInt64 Nat)) (map : Map UInt64 Nat) (cursor : Cursor UInt64 Nat),
      Tour (Key.word {}) stages map cursor ∧ yielded stages = [⟨0, 10⟩, ⟨0, 0⟩] ∧
      ¬ Distinct (Key.wordReading {}) (yielded stages) := by
  refine ⟨Key.word_follows {}, Key.word_coherent {}, Key.word_total {}, ?_⟩
  have made : Reachable (V := Nat) (Key.word {}) _ := .made .empty (.ample { forced := [1] }) rfl
  have filled := made.after (.extend ((List.range 9).map fun n => (n.toUInt64, n))) (.ample {}) ()
    (by decide +kernel)
  have first := (Tour.start ⟨{ forced := [0] }, ()⟩ filled rfl).stepped ⟨{}, ()⟩ (some (0, 0))
    (by decide +kernel)
  have cleared := first.called .clear (.ample { forced := [0] }) () (by decide +kernel)
  have refilled := cleared.called (.insert 0 10) (.ample {}) () (by decide +kernel)
  have second := refilled.stepped ⟨{}, ()⟩ (some (0, 10)) (by decide +kernel)
  refine ⟨_, _, _, second, rfl, ?_⟩
  change ¬ Distinct (Key.wordReading {}) [⟨0, 10⟩, ⟨0, 0⟩]
  simp [Distinct, Key.wordReading, Key.standardReading]

theorem tour_repeats_le_emptied_by_removal : ∃ (stages : List (Stage UInt64 Nat)),
    yielded stages = [⟨0, 12⟩, ⟨2, 11⟩, ⟨0, 10⟩] ∧ emptied stages = 1 ∧
    ∀ key, (yielded stages).countP (fun entry => (Key.wordReading {}).same key entry.key) ≤
      1 + emptied stages := by
  obtain ⟨stages, map, cursor, tour, shown, once⟩ : ∃ (stages : List (Stage UInt64 Nat))
      (map : Map UInt64 Nat) (cursor : Cursor UInt64 Nat), Tour (Key.word {}) stages map cursor ∧
        yielded stages = [⟨0, 12⟩, ⟨2, 11⟩, ⟨0, 10⟩] ∧ emptied stages = 1 := by
    have made : Reachable (V := Nat) (Key.word {}) _ := .made .empty (.ample { forced := [1] }) rfl
    have grown := made.after (.extend ((List.range 9).map fun n => (n.toUInt64, n))) (.ample {}) ()
      (by decide +kernel)
    have bare := grown.after .clear (.ample { forced := [1] }) () (by decide +kernel)
    have filled := bare.after (.extend [(0, 10), (2, 11)]) (.ample {}) () (by decide +kernel)
    have first := (Tour.start ⟨{ forced := [0] }, ()⟩ filled rfl).stepped ⟨{}, ()⟩ (some (0, 10))
      (by decide +kernel)
    have second := first.stepped ⟨{}, ()⟩ (some (2, 11)) (by decide +kernel)
    have fewer := second.called (.remove 0) (.ample {}) () (by decide +kernel)
    have emptied := fewer.called (.remove 2) (.ample { forced := [0] }) () (by decide +kernel)
    have refilled := emptied.called (.insert 0 12) (.ample {}) () (by decide +kernel)
    have third := refilled.stepped ⟨{}, ()⟩ (some (0, 12)) (by decide +kernel)
    exact ⟨_, _, _, third, rfl, by decide +kernel⟩
  exact ⟨stages, shown, once,
    tour_repeats_le_emptied (Key.word_follows {}) (Key.word_coherent {}) tour⟩

end GradualMap
