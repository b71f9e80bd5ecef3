import GradualMap.Proofs.Cursor
import GradualMap.Proofs.Keys

/-!
Tours: a cursor and its map, which is called between the steps of the cursor, in any order. A tour
is told backwards, from its latest stage on.
-/

namespace GradualMap

open GradualMap.Action

/-- A map at one time, and what the cursor answered then, if it made a step. -/
structure Stage (K V : Type) where
  map : Map K V
  answer : Option (Option (K × V)) := none

variable {K V δ : Type} {reading : Reading K} {exact : Prop} {scheme : KeyScheme K δ}
  {stages : List (Stage K V)} {map : Map K V} {cursor : Cursor K V} {key : K}

/-- No call aborts, and each meets surroundings of its own. -/
inductive Tour (scheme : KeyScheme K δ) : List (Stage K V) → Map K V → Cursor K V → Prop
  | start {map : Map K V} {cursor : Cursor K V} (env : KeyEnv δ) (reachable : Reachable scheme map)
      (run : (Cursor.ofMap map env).1 = .ok cursor) : Tour scheme [{ map }] map cursor
  | call {stages : List (Stage K V)} {before after : Map K V} {cursor : Cursor K V} {ρ : Type}
      {env env' : Env δ} {own own' : ρ} {result : Except Failure (Answer K V)} (call : Call K V ρ)
      (tour : Tour scheme stages before cursor)
      (run : call.attempt scheme ((before, env), own) = (result, ((after, env'), own')))
      (calm : ∀ cause, result ≠ .error (.abort cause)) :
      Tour scheme ({ map := after } :: stages) after cursor
  | step {stages : List (Stage K V)} {map : Map K V} {before after : Cursor K V}
      {env env' : KeyEnv δ} {answer : Option (K × V)} (tour : Tour scheme stages map before)
      (run : Cursor.next scheme map (before, env) = (.ok answer, (after, env'))) :
      Tour scheme ({ map, answer := some answer } :: stages) map after

theorem Tour.called {ρ : Type} (tour : Tour scheme stages map cursor) (call : Call K V ρ)
    (env : Env δ) (own : ρ)
    (answered : (call.attempt scheme ((map, env), own)).1.toOption.isSome = true) :
    Tour scheme ({ map := (call.attempt scheme ((map, env), own)).2.1.1 } :: stages)
      (call.attempt scheme ((map, env), own)).2.1.1 cursor :=
  .call call tour rfl (calm_of_isSome answered)

theorem Tour.stepped (tour : Tour scheme stages map cursor) (env : KeyEnv δ)
    (answer : Option (K × V)) (run : (Cursor.next scheme map (cursor, env)).1 = .ok answer) :
    Tour scheme ({ map, answer := some answer } :: stages) map
      (Cursor.next scheme map (cursor, env)).2.1 :=
  .step tour (Prod.ext run rfl)

/-- The entries that a tour has shown. -/
def yielded (stages : List (Stage K V)) : List (Entry K V) :=
  stages.filterMap fun stage => stage.answer.join.map fun pair => ⟨pair.1, pair.2⟩

/-- The key was in the table at every stage. -/
def Stays (reading : Reading K) (stages : List (Stage K V)) (key : K) : Prop :=
  ∀ stage ∈ stages, ∃ entry ∈ stage.map.table.entries, reading.same key entry.key = true

/-- The table was empty at no stage. -/
def NeverEmpty (stages : List (Stage K V)) : Prop :=
  ∀ stage ∈ stages, stage.map.table.entries ≠ []

/-- The keys shown that a look-up can find. -/
def shownKeys (reading : Reading K) (stages : List (Stage K V)) : List K :=
  ((yielded stages).filter (·.isKnown reading)).map (·.key)

theorem shownKeys_cons (map : Map K V) (answer : Option (K × V)) :
    shownKeys reading ({ map, answer := some answer } :: stages) =
      Cursor.shownBy reading answer ++ shownKeys reading stages := by
  cases answer with
  | none => rfl
  | some pair =>
    change ((Entry.mk pair.1 pair.2 :: yielded stages).filter (·.isKnown reading)).map (·.key) = _
    rw [List.filter_cons, Cursor.shownBy]
    change List.map _ (if reading.same pair.1 pair.1 then _ else _) = _
    split <;> rfl

theorem Stays.neverEmpty (stays : Stays reading stages key) : NeverEmpty stages := by
  intro stage mem empty
  obtain ⟨entry, stored, _⟩ := stays stage mem
  rw [empty] at stored
  cases stored

theorem Stays.head {stage : Stage K V} (stays : Stays reading (stage :: stages) key) :
    ∃ entry ∈ stage.map.table.entries, reading.same key entry.key = true :=
  stays stage (.head _)

theorem Stays.tail {stage : Stage K V} (stays : Stays reading (stage :: stages) key) :
    Stays reading stages key :=
  fun earlier mem => stays earlier (.tail _ mem)

theorem NeverEmpty.head {stage : Stage K V} (lasting : NeverEmpty (stage :: stages)) :
    stage.map.table.entries ≠ [] :=
  lasting stage (.head _)

theorem NeverEmpty.tail {stage : Stage K V} (lasting : NeverEmpty (stage :: stages)) :
    NeverEmpty stages :=
  fun earlier mem => lasting earlier (.tail _ mem)

theorem Tour.reachable (tour : Tour scheme stages map cursor) : Reachable scheme map := by
  induction tour with
  | start _ reachable _ => exact reachable
  | call call _ run calm ih => exact .called call ih run calm
  | step _ _ ih => exact ih

/-- The latest stage is that of the map as it is. -/
theorem Tour.stays_here (tour : Tour scheme stages map cursor) (stays : Stays reading stages key) :
    ∃ entry ∈ map.table.entries, reading.same key entry.key = true := by
  cases tour with
  | start => exact stays.head
  | call => exact stays.head
  | step => exact stays.head

/-- What is known of a tour at any time. The keys are only kept track of until the table is empty,
since its seed is drawn anew then. -/
structure Guided (reading : Reading K) (stages : List (Stage K V)) (map : Map K V)
    (cursor : Cursor K V) : Prop where
  mine : map.id = cursor.mapId
  stands : Cursor.Stands reading map.table cursor
  held : ∀ stage ∈ stages, ∀ pair, stage.answer = some (some pair) →
    reading.same pair.1 pair.1 = true → ⟨pair.1, pair.2⟩ ∈ stage.map.table.entries
  ended : (∃ stage ∈ stages, stage.answer = some none) → cursor.finished = true
  tracks : NeverEmpty stages → Cursor.Tracks reading map.table.seed cursor
    (shownKeys reading stages ++ Cursor.waiting cursor.pending) (Stays reading stages)
  closed : NeverEmpty stages → cursor.finished = true → cursor.pending = [] ∧ cursor.ahead = []

namespace Guided

theorem start (sound : map.Sound (reading.rules exact)) {env : KeyEnv δ}
    (run : (Cursor.ofMap map env).1 = .ok cursor) : Guided reading [{ map }] map cursor := by
  obtain ⟨mine, stands, idle, ahead, empty⟩ :=
    (Cursor.ofMap_yields reading map env).of_ok run
  refine ⟨mine, stands, ?_, ?_, fun _ => ?_, fun lasting finished => ?_⟩
  · intro stage mem pair shown
    obtain rfl := List.mem_singleton.mp mem
    cases shown
  · rintro ⟨stage, mem, nothing⟩
    obtain rfl := List.mem_singleton.mp mem
    cases nothing
  · rw [idle]
    refine ⟨.nil, by simp [shownKeys, yielded, Cursor.waiting], ?_⟩
    rintro key _ ⟨hash, _, passed⟩
    have inside := Nat.mod_lt hash.toNat (bucketCount_pos cursor.exponent)
    exact absurd (ahead.mem_iff.mpr (List.mem_range.mpr inside)) passed
  · exact absurd (sound.table.entries_eq_nil.mp (empty finished)) lasting.head

/-- A call leaves the cursor alone, and the seed as long as there are entries. -/
theorem call {after : Map K V} (guided : Guided reading stages map cursor)
    (onward : Map.Onward map after) : Guided reading ({ map := after } :: stages) after cursor := by
  obtain ⟨mine, stands, held, ended, tracks, closed⟩ := guided
  refine ⟨onward.id.trans mine, ⟨Nat.le_trans stands.grown onward.exponent_le, stands.bound,
    stands.nodup, stands.fits⟩, ?_, ?_, fun lasting => ?_, fun lasting => closed lasting.tail⟩
  · intro stage mem pair shown
    rcases List.mem_cons.mp mem with rfl | mem
    · cases shown
    · exact held stage mem pair shown
  · rintro ⟨stage, mem, nothing⟩
    rcases List.mem_cons.mp mem with rfl | mem
    · cases nothing
    · exact ended ⟨stage, mem, nothing⟩
  · rw [onward.seed.resolve_right fun gone => lasting.head gone.2]
    exact (tracks lasting.tail).weaken fun _ => Stays.tail

theorem step {after : Cursor K V} {answer : Option (K × V)}
    (guided : Guided reading stages map cursor)
    (stepped : Cursor.Stepped reading map.table cursor answer after)
    (closes : Cursor.Closes cursor answer after) :
    Guided reading ({ map, answer := some answer } :: stages) map after := by
  obtain ⟨mine, stands, held, ended, tracks, closed⟩ := guided
  refine ⟨mine.trans stepped.mapId.symm, stepped.stands, ?_, ?_, fun lasting => ?_,
    fun lasting finished => ?_⟩
  · intro stage mem pair shown known
    rcases List.mem_cons.mp mem with rfl | mem
    · exact stepped.held pair (Option.some.inj shown) known
    · exact held stage mem pair shown known
  · rintro ⟨stage, mem, nothing⟩
    rcases List.mem_cons.mp mem with rfl | mem
    · exact closes.nothing (Option.some.inj nothing)
    · have finished := ended ⟨stage, mem, nothing⟩
      rw [closes.last finished]
      exact finished
  · rw [shownKeys_cons]
    refine stepped.tracks _ _ (fun _ => Stays.head) ?_
    exact (tracks lasting.tail).weaken fun _ => Stays.tail
  · by_cases before : cursor.finished = true
    · rw [closes.last before]
      exact closed lasting.tail before
    · exact closes.first (Bool.eq_false_iff.mpr before) finished

end Guided

theorem Tour.guided (follows : scheme.Follows reading) (coherent : reading.Coherent)
    (tour : Tour scheme stages map cursor) : Guided reading stages map cursor := by
  induction tour with
  | start env reachable run =>
    have sound : Map.Sound (reading.rules True) _ := reachable.sound follows
    exact .start sound run
  | call call tour run calm ih =>
    have sound : Map.Sound (reading.rules True) _ := tour.reachable.sound follows
    exact ih.call (call.onward follows sound run calm)
  | step tour run ih =>
    have sound : Map.Sound (reading.rules True) _ := tour.reachable.sound follows
    obtain ⟨_, all, distinct⟩ := tour.reachable.has follows coherent
      (dictionary_lawful coherent scheme.traits.replacesKey)
    obtain ⟨stepped, closes⟩ :=
      (Cursor.next_ends follows coherent sound distinct ih.mine ih.stands _).answer run
    exact ih.step stepped closes

theorem Distinct.countP_eq_one {entries : List (Entry K V)} {entry : Entry K V}
    (coherent : reading.Coherent) (distinct : Distinct reading entries) (mem : entry ∈ entries)
    (same : reading.same key entry.key = true) :
    entries.countP (fun entry => reading.same key entry.key) = 1 := by
  obtain ⟨before, after, rfl⟩ := List.append_of_mem mem
  have all : (before ++ entry :: after).Perm (entry :: (before ++ after)) := List.perm_middle
  have others := (distinct.perm coherent all).others coherent same
  rw [all.countP_eq, List.countP_cons, if_pos same, Nat.add_eq_right, List.countP_eq_zero]
  exact fun other mem => Bool.eq_false_iff.mp (others other mem)

namespace Guided

/-- A stray key is like no key, so the keys kept track of are enough. -/
theorem distinct (coherent : reading.Coherent) (guided : Guided reading stages map cursor)
    (lasting : NeverEmpty stages) : Distinct reading (yielded stages) := by
  have apart := (List.pairwise_append.mp (guided.tracks lasting).apart).1
  refine (List.pairwise_filter.mp (List.pairwise_map.mp apart)).imp fun {a b} differ => ?_
  rw [Bool.eq_false_iff]
  intro same
  obtain ⟨known, known'⟩ := coherent.straysApart _ _ same
  rw [differ known known'] at same
  cases same

/-- In the end no class is ahead, so no key that was there all the time is missing. -/
theorem complete (coherent : reading.Coherent) (sound : map.Sound (reading.rules exact))
    (guided : Guided reading stages map cursor) (finished : cursor.finished = true)
    (stays : Stays reading stages key) (here : ∃ entry ∈ map.table.entries,
      reading.same key entry.key = true) :
    (yielded stages).countP (fun entry => reading.same key entry.key) = 1 := by
  have lasting := stays.neverEmpty
  obtain ⟨idle, nothing⟩ := guided.closed lasting finished
  obtain ⟨entry, stored, same⟩ := here
  obtain ⟨hash, code⟩ :=
    Cursor.code_of_mem sound.table stored (coherent.straysApart _ _ same).2
  have passed : cursor.Passed reading map.table.seed key := by
    refine ⟨hash, (coherent.alike _ _ _ same).trans code, ?_⟩
    rw [nothing]
    exact List.not_mem_nil
  obtain ⟨other, found, same'⟩ := (guided.tracks lasting).covered key stays passed
  rw [idle, Cursor.waiting, List.filterMap_nil, List.append_nil] at found
  obtain ⟨shown, mem, rfl⟩ := List.mem_map.mp found
  exact (guided.distinct coherent lasting).countP_eq_one coherent (List.mem_of_mem_filter mem) same'

end Guided

/-- The contract of a cursor, whatever its map is called with between the steps: once the cursor has
answered nothing, it has shown each key that was always there exactly once; what it shows is in the
table as it is then; it shows no key twice unless the table was empty; and when it ends, it ends. A
step can only fail on a key that is refused under one seed and not under another. -/
theorem tour_keeps_contract (follows : scheme.Follows reading) (coherent : reading.Coherent)
    (tour : Tour scheme stages map cursor) :
    ((∃ stage ∈ stages, stage.answer = some none) → ∀ key, Stays reading stages key →
      (yielded stages).countP (fun entry => reading.same key entry.key) = 1) ∧
    (∀ stage ∈ stages, ∀ pair, stage.answer = some (some pair) →
      reading.same pair.1 pair.1 = true → ⟨pair.1, pair.2⟩ ∈ stage.map.table.entries) ∧
    (NeverEmpty stages → Distinct reading (yielded stages)) ∧
    ((∃ stage ∈ stages, stage.answer = some none) → cursor.finished = true ∧
      ∀ env, Cursor.next scheme map (cursor, env) = (.ok none, (cursor, env))) ∧
    (reading.Steadfast → ∀ env, Yields (Cursor.next scheme map) (cursor, env) fun _ _ => True) := by
  have sound : map.Sound (reading.rules True) := tour.reachable.sound follows
  have guided := tour.guided follows coherent
  refine ⟨fun ended key stays => ?_, guided.held, guided.distinct coherent, fun ended => ?_,
    fun steadfast env => ?_⟩
  · exact guided.complete coherent sound (guided.ended ended) stays (tour.stays_here stays)
  · have finished := guided.ended ended
    exact ⟨finished, Cursor.next_of_finished guided.mine finished⟩
  · obtain ⟨_, all, distinct⟩ := tour.reachable.has follows coherent
      (dictionary_lawful coherent scheme.traits.replacesKey)
    exact (Cursor.next_ends follows coherent sound distinct guided.mine guided.stands env).mono
      (fun _ _ _ => trivial) fun _ _ fails => fails steadfast

/-- Between two steps the table is doubled, a queued key removed and another one overwritten. -/
theorem tour_keeps_contract_amid_growth : ∃ (stages : List (Stage UInt64 Nat))
    (map : Map UInt64 Nat) (cursor : Cursor UInt64 Nat), map.table.exponent = 3 ∧
    stages.map (·.answer) =
      [some none, some (some (3, 31)), none, none, none, some (some (1, 10)), none] ∧
    ((∃ stage ∈ stages, stage.answer = some none) →
      ∀ key, Stays (Key.wordReading {}) stages key →
        (yielded stages).countP (fun entry => (Key.wordReading {}).same key entry.key) = 1) ∧
    (∀ stage ∈ stages, ∀ pair, stage.answer = some (some pair) →
      (Key.wordReading {}).same pair.1 pair.1 = true →
      ⟨pair.1, pair.2⟩ ∈ stage.map.table.entries) ∧
    (NeverEmpty stages → Distinct (Key.wordReading {}) (yielded stages)) ∧
    ((∃ stage ∈ stages, stage.answer = some none) → cursor.finished = true ∧
      ∀ env, Cursor.next (Key.word {}) map (cursor, env) = (.ok none, (cursor, env))) ∧
    ((Key.wordReading {}).Steadfast →
      ∀ env, Yields (Cursor.next (Key.word {}) map) (cursor, env) fun _ _ => True) := by
  obtain ⟨stages, map, cursor, tour, exponent, answers⟩ : ∃ (stages : List (Stage UInt64 Nat))
      (map : Map UInt64 Nat) (cursor : Cursor UInt64 Nat), Tour (Key.word {}) stages map cursor ∧
        map.table.exponent = 3 ∧ stages.map (·.answer) =
          [some none, some (some (3, 31)), none, none, none, some (some (1, 10)), none] := by
    have made : Reachable (V := Nat) (Key.word {}) _ := .made .empty (.ample {}) rfl
    have filled := made.after (.extend [(1, 10), (2, 20), (3, 30)]) (.ample {}) ()
      (by decide +kernel)
    have first := (Tour.start ⟨{}, ()⟩ filled rfl).stepped ⟨{}, ()⟩ (some (1, 10))
      (by decide +kernel)
    have grown := first.called (.extend ((List.range 30).map fun n => (n.toUInt64 + 4, n)))
      (.ample {}) () (by decide +kernel)
    have removed := grown.called (.remove 2) (.ample {}) () (by decide +kernel)
    have written := removed.called (.insert 3 31) (.ample {}) () (by decide +kernel)
    have second := written.stepped ⟨{}, ()⟩ (some (3, 31)) (by decide +kernel)
    have third := second.stepped ⟨{}, ()⟩ none (by decide +kernel)
    exact ⟨_, _, _, third, by decide +kernel, rfl⟩
  exact ⟨stages, map, cursor, exponent, answers,
    tour_keeps_contract (Key.word_follows {}) (Key.word_coherent {}) tour⟩

end GradualMap
