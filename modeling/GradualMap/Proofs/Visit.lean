import GradualMap.Proofs.Census
import GradualMap.Proofs.Partition
import GradualMap.Proofs.Seek

/-!
The writing walk from its start to its end. It completes the resize in flight, for which the scheme
has to answer for the stored keys and for no others, and visits each live slot once. What a caller
writes on the way changes the values there and nothing else.
-/

namespace GradualMap

open GradualMap.Action

variable {K V δ : Type} {scheme : KeyScheme K δ} {rules : Rules K} {reading : Reading K}

namespace Table

variable {table : Table K V} {resize : Resize K V} {old : Nat}

/-- The scheme answers for every stored key. -/
def Answered (scheme : KeyScheme K δ) (table : Table K V) : Prop :=
  ∀ entry ∈ table.entries, scheme.Answers table.seed entry.key

theorem Steady.answered {after : Table K V} (steady : Steady table after)
    (answered : table.Answered scheme) : after.Answered scheme := by
  intro entry mem
  rw [steady.seed]
  exact answered entry (steady.entries.mem_iff.mp mem)

/-- An evacuation asks for the keys in its chain only. -/
theorem evacuate_yields (sound : table.Sound Rules.any) (answered : table.Answered scheme)
    (growing : table.resize = some resize) (bound : old < resize.array.size) (env : Env δ) :
    Yields (evacuate scheme old) (table, env) fun _ s =>
      Shifts scheme (table, env.log) (s.1, s.2.log) ∧ Passed old resize s.1 := by
  -- What an evacuation leaves is known of any that ends; it is left to show that this one ends.
  have ends : Yields (evacuate scheme old) (table, env) fun _ _ => True := by
    unfold Yields
    rw [ends_evacuate growing bound]
    split
    · rename_i evacuated
      have vacated := (sound.isEvacuated_iff growing bound).mp evacuated
      exact (advance_nears scheme sound growing vacated env).mono fun _ _ _ => trivial
    · rename_i waits
      rw [Bool.not_eq_true] at waits
      have dealing := sound.dealing growing bound waits
      have waiting := sound.waiting growing bound waits
      refine (evacuateSlots_ends (Nat.zero_lt_of_lt bound) _ dealing ?_).mono ?_ fun _ _ => id
      · intro item mem env
        have stored : item.2 ∈ table.entries := mem_entries.mpr
          (.inr ⟨resize, growing, old, bound, List.mem_map_of_mem mem⟩)
        have answers : scheme.Answers (resize.routing table.seed).seed item.2.key :=
          answered item.2 stored
        exact answers.route_yields item.1 env
      · rintro _ ⟨after, env'⟩ ⟨moved, carried, dealt, _⟩
        obtain ⟨array, growing', size, others, vacated⟩ := dealt.vacated resize growing
        have sound' := dealt.sound (Rules.any_heldBy scheme) sound growing bound waiting carried
        exact (advance_nears scheme sound' growing' vacated env').mono fun _ _ _ => trivial
  exact (ends.also (evacuate_ends (Rules.any_heldBy scheme) sound growing bound env)).mono
    fun _ _ => And.right

theorem finishGrowth_yields (sound : table.Sound Rules.any) (answered : table.Answered scheme)
    (env : Env δ) :
    Yields (finishGrowth scheme) (table, env) fun _ s =>
      Shifts scheme (table, env.log) (s.1, s.2.log) ∧ s.1.resize = none := by
  refine finishGrowth_ends_of (fun table => table.Sound Rules.any ∧ table.Answered scheme)
    (fun kept growing => (kept.1.resizing _ growing).cursor_lt) (fun env kept growing => ?_)
    ⟨sound, answered⟩ env
  obtain ⟨sound, answered⟩ := kept
  have bound := (sound.resizing _ growing).cursor_lt
  refine (evacuate_yields sound answered growing bound env).ends fun _ s h => ?_
  obtain ⟨sound', steady⟩ := h.1.sound (Rules.any_heldBy scheme) sound
  exact ⟨⟨sound', steady.answered answered⟩, h⟩

theorem Sound.revalue (sound : table.Sound rules) (pos : Position) (f : V → V) :
    (table.revalue pos f).Sound rules := by
  unfold Table.revalue
  split
  · rename_i top entry holds
    exact (sound.put holds { entry with value := f entry.value } fun _ _ _ => id).1
  · exact sound

end Table

namespace Sweep

variable {map : Map K V} {sweep : Sweep} {env : Env δ}

/-- Some calls of a writing walk, each with what it does to the value: what they answer, and how
many entries the walk says are left then. -/
def follow : List (V → V) → Sweep → MapAction K V δ (List (Option (K × V) × Nat))
  | [], _ => return []
  | f :: writes, sweep => do
    let (answer, onward) ← sweep.next f
    return (answer, onward.len) :: (← follow writes onward)

theorem map_filter_isSome {α β : Type} (f : α → Option β) (xs : List α) :
    (xs.filter fun x => (f x).isSome).map f = (xs.filterMap f).map some := by
  induction xs with
  | nil => rfl
  | cons x xs ih =>
    cases shown : f x with
    | none => simp [shown, ih]
    | some y => simp [shown, ih]

theorem Under.map_ahead {done pending : List (Entry K V)} {table : Table K V}
    (under : Under rules done pending table sweep) :
    (ahead table sweep).map table.shown = pending.map some := by
  rw [← under.shows]
  exact map_filter_isSome _ _

/-- The table after the first of some live slots were written. -/
def rewrite (order : List Position) (writes : List (V → V)) (table : Table K V) : Table K V :=
  (order.zip writes).foldl (fun table write => table.revalue write.1 write.2) table

theorem sound_rewrite (order : List Position) (writes : List (V → V)) :
    ∀ {table : Table K V}, table.Sound rules → (rewrite order writes table).Sound rules := by
  unfold rewrite
  induction order.zip writes with
  | nil => exact id
  | cons write rest ih => exact fun sound => ih (sound.revalue write.1 write.2)

theorem follow_yields (writes : List (V → V)) :
    ∀ {map : Map K V} {env : Env δ} {sweep : Sweep} {done pending : List (Entry K V)},
      Under rules done pending map.table sweep →
      Yields (follow writes sweep) (map, env) fun answers s =>
        answers = writes.mapIdx (fun i f =>
          (pending[i]?.map fun entry => (entry.key, f entry.value), pending.length - (i + 1))) ∧
        s.1 = { map with table := rewrite (ahead map.table sweep) writes map.table } ∧
        s.1.table.entries.Perm
          ((written writes pending).reverse ++ done ++ pending.drop writes.length) ∧
        s.1.table.resize = none ∧ Passes map s.1 := by
  induction writes with
  | nil =>
    intro map env sweep done pending under
    refine ⟨rfl, ?_, under.entries, under.idle, rfl, rfl, rfl, rfl, rfl⟩
    simp [rewrite]
  | cons f writes ih =>
    intro map env sweep done pending under
    unfold follow Yields
    rw [ends_bind]
    cases pending with
    | nil =>
      -- All entries were shown: the writes that are left are asked for in vain.
      apply (next_done under f).ends
      rintro _ _ ⟨rfl, rfl⟩
      rw [ends_bind]
      apply (ih under).ends
      rintro _ s ⟨rfl, after, rest⟩
      have none : ahead map.table sweep = [] := by simpa using under.map_ahead
      refine ⟨?_, ?_, ?_⟩
      · have left : sweep.len = 0 := under.remaining
        rw [List.mapIdx_cons, left]
        simp
      · rw [after, none]
        rfl
      · simpa [written] using rest
    | cons entry pending =>
      apply (next_yields under f).ends
      rintro ⟨_, onward⟩ ⟨between, env⟩ ⟨rfl, under', passes, pos, shown, first, rfl⟩
      rw [ends_bind]
      apply (ih under').ends
      rintro _ s ⟨rfl, after, entries, idle, passes'⟩
      refine ⟨?_, ?_, ?_, idle, ?_⟩
      · have left : onward.len = pending.length := under'.remaining
        rw [List.mapIdx_cons, left]
        simp
      · rw [after, first]
        rfl
      · simpa [written] using entries
      · exact ⟨passes'.count.trans passes.count, passes'.exponent.trans passes.exponent,
          passes'.seed.trans passes.seed, passes'.latch.trans passes.latch,
          passes'.id.trans passes.id⟩

/-- A fresh walk has every live slot before it. -/
theorem mem_ahead_start {table : Table K V} (idle : table.resize = none) (start : Nat)
    {pos : Position} :
    pos ∈ ahead table { buckets := table.current.places start, remaining := table.count } ↔
      ∃ top entry, table.Holds pos top entry := by
  have live : (table.shown pos).isSome = true ↔ ∃ top entry, table.Holds pos top entry := by
    rw [Option.isSome_iff_exists, exists_comm]
    exact exists_congr fun entry => Table.shown_eq_some
  unfold ahead
  rw [List.mem_filter, live, and_iff_right_iff_imp]
  rintro ⟨top, entry, holds⟩
  refine (route_perm _ _).mem_iff.mpr (List.mem_flatMap.mpr ?_)
  obtain ⟨_ | _, index, offset⟩ := pos
  · obtain ⟨bound, slot⟩ := Table.holds_current.mp holds
    have inside := (List.getElem?_eq_some_iff.mp slot).1
    exact ⟨index, List.mem_range.mpr bound, List.mem_map_of_mem (List.mem_range.mpr inside)⟩
  · obtain ⟨resize, growing, _⟩ := Table.holds_former.mp holds
    rw [idle] at growing
    cases growing

/-- A walk that found `items` in the slots of `order`, with a call for each of `writes`. -/
structure Visits (writes : List (V → V)) (between after : Map K V) (left : Nat)
    (answers : List (Option (K × V) × Nat)) (order : List Position) (items : List (Entry K V)) :
    Prop where
  nodup : order.Nodup
  live : ∀ pos, pos ∈ order ↔ ∃ top entry, between.table.Holds pos top entry
  shows : order.map between.table.shown = items.map some
  left : left = items.length
  answers : answers = writes.mapIdx fun i f =>
    (items[i]?.map fun entry => (entry.key, f entry.value), items.length - (i + 1))
  after : after = { between with table := rewrite order writes between.table }

/-- After a walk the look-ups show what was written, and where nothing was, what was there. -/
theorem finds_written {after : Map K V} {order : List Position} {writes : List (V → V)}
    {items : List (Entry K V)} (follows : scheme.Follows reading) (coherent : reading.Coherent)
    {between : Map K V} (passes : Passes between after)
    (rewritten : after = { between with table := rewrite order writes between.table })
    (reachable : Reachable scheme map) (steady : Table.Steady map.table between.table)
    (sound : between.table.Sound (reading.rules True)) (free : between.latch.held = false)
    (all : items.Perm between.table.entries) (idle : after.table.resize = none)
    (entries : after.table.entries.Perm (written writes items ++ items.drop writes.length))
    (key : K) (keys : KeyEnv δ) :
    Ends (after.getPair? scheme key) keys
      (fun answer _ => answer = ((written writes items ++ items.drop writes.length).find?
        fun entry => reading.same key entry.key).map Entry.pair)
      (fun failure _ => reading.Refuses failure) := by
  have whole : map.Sound (reading.rules True) := reachable.sound follows
  have sound' : after.table.Sound (reading.rules True) := by
    rw [rewritten]
    exact sound_rewrite _ _ sound
  have snug : after.table.Snug := whole.snug.mono (passes.exponent.trans steady.exponent)
    (fun _ => idle) (Nat.le_of_eq (passes.count.trans steady.count))
  have shown := ((entries.map (·.key)).subperm.trans (keys_written writes items).subperm).trans
    ((all.trans steady.entries).map (·.key)).subperm
  have distinct := (reachable.kept follows.agrees coherent).distinct.of_keys coherent shown
  exact Map.getPair?_finds follows coherent ⟨sound', snug, passes.latch ▸ free⟩
    ⟨entries.symm, distinct⟩ key keys

end Sweep

/-- A writing walk ends the resize in flight, shows every live slot once and then nothing more, and
always says how many are to come. Afterwards look-ups answer as the written entries do. -/
theorem writing_walk_visits_once {map : Map K V} (reachable : Reachable scheme map)
    (answered : map.table.Answered scheme) (writes : List (V → V)) (env : Env δ) :
    Yields (do
        let sweep ← Sweep.ofMap scheme
        let between ← Map.read
        return (between, sweep.len, ← sweep.follow writes)) (map, env)
      fun (between, left, answers) s =>
        between = { map with table := between.table } ∧ between.table.resize = none ∧
        Table.Steady map.table between.table ∧
        ∃ order items, Sweep.Visits writes between s.1 left answers order items ∧
          ∀ reading : Reading K, scheme.Follows reading → reading.Coherent → ∀ key keys,
            Ends (s.1.getPair? scheme key) keys
              (fun answer _ => answer = ((Sweep.written writes items ++
                items.drop writes.length).find? fun entry =>
                  reading.same key entry.key).map Entry.pair)
              (fun failure _ => reading.Refuses failure) := by
  obtain ⟨sound, free⟩ := reachable.intact
  unfold Yields
  rw [ends_bind]
  refine Sweep.ofMap_ends free ((Table.finishGrowth_yields sound answered env).ends ?_)
  rintro _ ⟨table, env'⟩ ⟨shifts, idle⟩ word keys
  obtain ⟨sound', steady⟩ := shifts.sound (Rules.any_heldBy scheme) sound
  obtain ⟨items, all, under⟩ :=
    Sweep.under_start sound' idle (Start.ofWord table.exponent word).index
  rw [ends_bind, Map.ends_read, ends_bind]
  apply (Sweep.follow_yields writes under).ends
  rintro answers s ⟨rfl, after, entries, idle', passes⟩
  have latch : map.latch = ⟨false⟩ := congrArg Latch.mk free
  refine ⟨by rw [latch], idle, steady, _, items, ⟨(Sweep.nodup_route _ _).filter _, fun pos =>
    Sweep.mem_ahead_start idle _, under.map_ahead, under.remaining, rfl, after⟩, ?_⟩
  intro reading follows coherent key keys
  have kept := reading.rules_keptBy follows.reproduces True
  rw [List.append_nil] at entries
  exact Sweep.finds_written follows coherent passes after reachable steady
    (shifts.sound kept (reachable.sound follows).table).1 rfl all idle'
    (entries.trans ((List.reverse_perm _).append_right _)) key keys

/-- The walk begins with a doubling in flight and a NaN in every second entry, and writes to each
entry but the last. -/
theorem writing_walk_visits_once_amid_nans :
    ∃ map : Map (Floating .binary32) Nat, map.table.resize.isSome = true ∧ map.table.count = 27 ∧
      ∀ env : Env Unit, Yields (do
          let sweep ← Sweep.ofMap (Key.floating .binary32 {})
          let between ← Map.read
          return (between, sweep.len, ← sweep.follow (List.replicate 26 (· + 1)))) (map, env)
        fun (between, left, answers) s =>
          between = { map with table := between.table } ∧ between.table.resize = none ∧
          Table.Steady map.table between.table ∧
          ∃ order items,
            Sweep.Visits (List.replicate 26 (· + 1)) between s.1 left answers order items ∧
            ∀ reading : Reading (Floating .binary32),
              (Key.floating .binary32 {}).Follows reading → reading.Coherent → ∀ key keys,
                Ends (s.1.getPair? (Key.floating .binary32 {}) key) keys
                  (fun answer _ =>
                    answer = ((Sweep.written (List.replicate 26 (· + 1)) items ++
                      items.drop 26).find? fun entry => reading.same key entry.key).map Entry.pair)
                  (fun failure _ => reading.Refuses failure) := by
  let nan : Floating .binary32 := ⟨0x7fc00000⟩
  let pairs := (List.range 27).map fun n => (if n % 2 = 0 then nan else .ofNat .binary32 n, n)
  have made : Reachable (V := Nat) (Key.floating .binary32 {}) _ := .made .empty (.ample {}) rfl
  obtain ⟨map, reachable, growing, count⟩ : ∃ map : Map (Floating .binary32) Nat,
      Reachable (Key.floating .binary32 {}) map ∧ map.table.resize.isSome = true ∧
      map.table.count = 27 :=
    ⟨_, made.after (.extend pairs) (.ample {}) () (by decide +kernel), by decide +kernel,
      by decide +kernel⟩
  have reproduces : (Key.floating .binary32 {}).Reproduces _ := Key.floating_follows.reproduces
  refine ⟨map, growing, count, fun env => ?_⟩
  simpa only [List.length_replicate] using writing_walk_visits_once reachable (fun entry _ =>
    reproduces.answers fun known => Key.floating_total entry.key _ known)
    (List.replicate 26 (· + 1)) env

end GradualMap
