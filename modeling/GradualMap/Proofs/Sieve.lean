import GradualMap.Proofs.Calm
import GradualMap.Proofs.Rest
import GradualMap.Proofs.Visit

/-!
Retaining from its start to its end, or to where the closure raises. A raise leaves holes in the
chain at hand, which cost a scan a few steps and no entry: what is left is found, and later calls
are answered from it, whichever way retaining ended.
-/

namespace GradualMap

open GradualMap.Action

variable {K V δ ρ : Type} {scheme : KeyScheme K δ} {reading : Reading K} {exact : Prop}

/-- Where no key is a stray, a scheme that follows a reading is calm wherever it is asked. -/
theorem KeyScheme.Follows.calms (follows : scheme.Follows reading)
    (known : ∀ key, reading.same key key = true) : scheme.Calms reading fun _ => True where
  equal a b env _ := ⟨follows.equal a b env, trivial⟩
  hash key seed env _ := ⟨follows.hash key seed env (known key), trivial⟩
  draw _ _ := trivial

/-- Where no key is refused, want of memory is all that hinders a call. -/
theorem Call.Hindered.denied {grants : Nat → Bool} {call : Call K V ρ} {failure : Failure}
    (hindered : call.Hindered reading grants failure) (total : reading.Total)
    (known : ∀ key, reading.same key key = true) : Denied grants failure := by
  rcases hindered with ⟨key, _, seed, refusal, refused, failed⟩ | denied
  · exact absurd ⟨key, seed, refusal, known key, refused, failed⟩ total.not_refuses
  · exact denied

namespace Map

variable {map : Map K V} {left : List (Entry K V)}

/-- The entries of a map are those of `left`, and calls are answered from these. -/
structure Holding (scheme : KeyScheme K δ) (reading : Reading K) (left : List (Entry K V))
    (map : Map K V) : Prop where
  entries : map.table.entries.Perm left
  count : map.table.count = left.length
  tallied : map.table.Tallied
  idle : map.table.resize = none
  free : map.latch.held = false
  found : ∀ entry ∈ left, ∀ keys, Yields (map.getPair? scheme entry.key) keys
    fun answer _ => answer = some entry.pair
  serves : ∀ {ρ : Type} (calls : List (Call K V ρ)) (env : Env δ) (own : ρ),
    Ends (Call.askAll scheme calls) ((map, env), own)
      (fun outcomes s => ∃ entries,
        (dictionary reading scheme.traits.replacesKey).Serves reading env.grants calls (left, own)
          outcomes (entries, s.2) ∧
        s.1.1.table.entries.Perm entries ∧ Distinct reading entries)
      (fun failure _ => ∃ met, Denied env.grants met ∧ failure = met.unhandled)

theorem Sound.holding (follows : scheme.Follows reading) (coherent : reading.Coherent)
    (total : reading.Total) (known : ∀ key, reading.same key key = true)
    (sound : map.Sound (reading.rules exact)) (idle : map.table.resize = none)
    (entries : map.table.entries.Perm left) (distinct : Distinct reading left) :
    Holding scheme reading left map := by
  have lawful := dictionary_lawful (V := V) coherent scheme.traits.replacesKey
  have has : (dictionary reading scheme.traits.replacesKey).Has left map.table.entries :=
    ⟨entries.symm, distinct.perm coherent entries.symm⟩
  refine ⟨entries, sound.table.count.trans entries.length_eq, sound.table.tallied, idle, sound.free,
    fun entry mem keys => ?_, fun calls env own => ?_⟩
  · refine (getPair?_finds follows coherent sound has entry.key keys).mono ?_
      fun failure _ refuses => total.not_refuses refuses
    rintro _ _ rfl
    rw [lawful.find_of_mem has (entries.mem_iff.mpr mem) (known entry.key)]
    rfl
  · refine (Call.askAll_ends coherent known (follows.calms known) lawful calls trivial rfl sound
      has).mono ?_ ?_
    · rintro outcomes s ⟨entries', serves, all, distinct'⟩
      exact ⟨entries', serves, all.symm, distinct'.perm coherent all.symm⟩
    · rintro failure _ ⟨call, _, met, hindered, rfl⟩
      exact ⟨met, hindered.denied total known, rfl⟩

/-- The closure saw every entry of `between`, and `left` is what it kept. -/
structure Sieved (scheme : KeyScheme K δ) (reading : Reading K)
    (f : K → V → StateM ρ (V × Except String Bool)) (own : ρ) (between : Table K V × Env δ)
    (left : List (Entry K V)) (after : (Map K V × Env δ) × ρ) : Prop where
  run : Keeps f between.1.current.entries own (.ok ()) left after.2
  holding : Holding scheme reading left after.1.1
  restExact : ∀ chain ∈ after.1.1.table.current.chains, Row.RestExact chain.slots
  reseeded : left = [] → after.1.1.table.seed = between.2.keys.draws.next.1 ∧
    after.1.2 = { between.2 with
      keys := { between.2.keys with draws := between.2.keys.draws.next.2 } }
  standing : left ≠ [] → after.1.1.table.seed = between.1.seed ∧ after.1.2 = between.2

/-- The closure kept `kept` of the entries it has `seen`, raised on `entry` under a new value, and
has not seen the others. -/
structure SievedUntil (scheme : KeyScheme K δ) (reading : Reading K)
    (f : K → V → StateM ρ (V × Except String Bool)) (own : ρ) (between : Table K V × Env δ)
    (text : String) (seen : List (Entry K V)) (entry : Entry K V) (unseen : List (Entry K V))
    (kept : List (Entry K V)) (value : V) (after : (Map K V × Env δ) × ρ) : Prop where
  order : between.1.current.entries = seen ++ entry :: unseen
  run : ∃ own', Keeps f seen own (.ok ()) kept own' ∧
    f entry.key entry.value own' = ((value, .error text), after.2)
  holding : Holding scheme reading (kept ++ { entry with value } :: unseen) after.1.1
  standing : after.1.1.table.seed = between.1.seed ∧ after.1.2 = between.2

/-- What is left has keys of stored entries, each at most once. -/
theorem holding_of_retained (follows : scheme.Follows reading) (coherent : reading.Coherent)
    (total : reading.Total) (known : ∀ key, reading.same key key = true)
    (reachable : Reachable scheme map) {between after : Table K V × Env δ}
    (steady : Table.Steady map.table between.1) (idle : between.1.resize = none)
    {f : K → V → StateM ρ (V × Except String Bool)} {own own' : ρ} {result : Except String Unit}
    (run : Keeps f between.1.current.entries own result left own')
    (retained : Table.Retained (reading.rules exact) left between after) :
    Holding scheme reading left { map with table := after.1, latch := ⟨false⟩ } := by
  have whole : map.Sound (reading.rules True) := reachable.sound follows
  have order : between.1.current.entries.Perm map.table.entries :=
    Table.entries_of_idle idle ▸ steady.entries
  have fewer : left.length ≤ map.table.count := by
    rw [whole.table.count, ← order.length_eq]
    exact run.length_le
  have keys := run.keys.subperm.trans (order.map (·.key)).subperm
  exact Sound.holding follows coherent total known
    ⟨retained.sound, retained.snug whole.snug steady.exponent fewer, rfl⟩ retained.idle
    retained.entries ((reachable.kept follows.agrees coherent).distinct.of_keys coherent keys)

end Map

/-- Retaining ends the resize in flight and then shows each entry to the closure once, in the order
of the array. What the closure has decided stands, even if it raises, and nothing else is lost. -/
theorem retain_sieves (follows : scheme.Follows reading) (coherent : reading.Coherent)
    (total : reading.Total) (known : ∀ key, reading.same key key = true) {map : Map K V}
    (reachable : Reachable scheme map) (filled : map.table.count ≠ 0)
    (f : K → V → StateM ρ (V × Except String Bool)) (env : Env δ) (own : ρ) :
    ∃ between, Table.finishGrowth scheme (map.table, env) = (.ok (), between) ∧
      between.1.resize = none ∧ Table.Steady map.table between.1 ∧
      between.1.current.entries.Perm map.table.entries ∧
      Ends (Map.retain scheme f) ((map, env), own)
        (fun _ after => ∃ left, Map.Sieved scheme reading f own between left after)
        (fun failure after => ∃ text seen entry unseen kept value,
          failure = .abort (.raised text) ∧
          Map.SievedUntil scheme reading f own between text seen entry unseen kept value
            after) := by
  have whole : map.Sound (reading.rules True) := reachable.sound follows
  have answered : map.table.Answered scheme := fun entry _ =>
    follows.reproduces.answers fun self => total entry.key map.table.seed self
  obtain ⟨_, between, run, shifts, idle⟩ :=
    yields_iff.mp (Table.finishGrowth_yields reachable.intact.1 answered env)
  obtain ⟨sound, steady⟩ := shifts.sound (reading.rules_keptBy follows.reproduces True) whole.table
  refine ⟨between, run, idle, steady, Table.entries_of_idle idle ▸ steady.entries, ?_⟩
  rw [Map.ends_retain whole.free, Table.retain_eq, ends_bind, ends_first, Table.ends_read,
    if_neg filled, ends_bind, ends_first]
  unfold Ends
  rw [run]
  refine (Table.retainSettled_ends f sound idle between.2 own).mono ?_ ?_
  · rintro _ s ⟨left, sieved, retained⟩
    have holding := Map.holding_of_retained follows coherent total known reachable steady idle
      sieved retained
    refine ⟨left, sieved, holding, fun chain mem => ?_, retained.reseeded, retained.standing⟩
    obtain ⟨i, bound, rfl⟩ := BucketArray.mem_chains.mp mem
    exact (retained.sound.chains i bound).tidy.restExact
  · rintro failure s ⟨left, text, sieved, raised, retained⟩
    -- The chain at hand has kept its holes, so that nothing is said of where a scan may stop.
    have loose : Table.Retained (reading.rules False) left between s.1 := retained
    have holding := Map.holding_of_retained follows coherent total known reachable steady idle
      sieved loose
    obtain ⟨seen, entry, unseen, value, kept, own', split, run', last, rfl⟩ :=
      Keeps.raised_iff.mp sieved
    exact ⟨text, seen, entry, unseen, kept, value, raised, split, ⟨own', run', last⟩, holding,
      retained.standing sieved.ne_nil⟩

/-- Amid a doubling of twenty-seven words a closure drops those it is shown and raises on the
fifth. -/
theorem retain_sieves_amid_doubling :
    ∃ (map : Map UInt64 Nat) (f : UInt64 → Nat → StateM Nat (Nat × Except String Bool)),
      map.table.resize.isSome = true ∧ map.table.count = 27 ∧
      (Map.retain (Key.word {}) f ((map, .ample {}), 0)).1 = .error (.abort (.raised "fifth")) ∧
      (Map.retain (Key.word {}) f ((map, .ample {}), 0)).2.1.1.table.count = 23 ∧
      ∀ env own, ∃ between,
        Table.finishGrowth (Key.word {}) (map.table, env) = (.ok (), between) ∧
        between.1.resize = none ∧ Table.Steady map.table between.1 ∧
        between.1.current.entries.Perm map.table.entries ∧
        Ends (Map.retain (Key.word {}) f) ((map, env), own)
          (fun _ after => ∃ left,
            Map.Sieved (Key.word {}) (Key.wordReading {}) f own between left after)
          (fun failure after => ∃ text seen entry unseen kept value,
            failure = .abort (.raised text) ∧
            Map.SievedUntil (Key.word {}) (Key.wordReading {}) f own between text seen entry unseen
              kept value after) := by
  let f : UInt64 → Nat → StateM Nat (Nat × Except String Bool) := fun _ value own =>
    ((value + 1, if own = 4 then .error "fifth" else .ok false), own + 1)
  have made : Reachable (V := Nat) (Key.word {}) _ := .made .empty (.ample {}) rfl
  obtain ⟨map, grown, growing, count, raised, left⟩ : ∃ map : Map UInt64 Nat,
      Reachable (Key.word {}) map ∧ map.table.resize.isSome = true ∧ map.table.count = 27 ∧
      (Map.retain (Key.word {}) f ((map, .ample {}), 0)).1 = .error (.abort (.raised "fifth")) ∧
      (Map.retain (Key.word {}) f ((map, .ample {}), 0)).2.1.1.table.count = 23 :=
    ⟨_, made.after (.extend ((List.range 27).map fun n => (n.toUInt64, n))) (.ample {}) ()
      (by decide +kernel), by decide +kernel⟩
  refine ⟨map, f, growing, count, raised, left, fun env own => ?_⟩
  exact retain_sieves (Key.word_follows {}) (Key.word_coherent {}) (Key.word_total {})
    ((Key.word_follows {}).reflexive rfl) grown (by rw [count]; decide) f env own

end GradualMap
