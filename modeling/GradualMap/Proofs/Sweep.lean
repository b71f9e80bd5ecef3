import GradualMap.Proofs.Growth
import GradualMap.Proofs.Place
import GradualMap.Traversal.Sweep
import Mathlib.Data.List.Nodup
import Mathlib.Data.List.Perm.Basic

/-!
The writing walk. Its route passes every slot of the current array once, so it shows every entry
once; what it writes to one entry changes no other.
-/

namespace GradualMap

open GradualMap.Action

variable {K V δ : Type}

namespace BucketArray

variable {array : BucketArray K V}

/-- The walk over all buckets meets each once, whatever the arena's order. -/
theorem places_perm (array : BucketArray K V) (start : Nat) :
    (array.places start).Perm ((List.range array.size).flatMap fun index =>
      (List.range (array.chainAt index).depth).map (index, ·)) := by
  have primary : (((List.range array.size).rotateLeft (start % array.size)).map (·, 0)).Perm
      ((List.range array.size).map (·, 0)) := (rotateLeft_perm _ _).map _
  let overflow := fun index => (List.range (array.chainAt index).cells.length).map (index, · + 1)
  have linked : (((List.range array.size).flatMap fun index =>
      ((array.chains[index]?.map Chain.cells).getD []).mapIdx fun i cell => (cell, index, i + 1)).map
        (·.2)) = (List.range array.size).flatMap overflow := by
    rw [List.map_flatMap, List.flatMap_def, List.flatMap_def]
    refine congrArg _ (List.map_congr_left fun index mem => ?_)
    rw [getElem?_chains (List.mem_range.mp mem), Option.map_some, Option.getD_some]
    apply List.ext_getElem?
    intro i
    by_cases bound : i < (array.chainAt index).cells.length <;> simp [overflow, bound]
  have split (index : Nat) : (List.range (array.chainAt index).depth).map (index, ·) =
      (index, 0) :: overflow index := by
    rw [Chain.depth, List.range_succ_eq_map, List.map_cons, List.map_map]
    rfl
  simp only [split]
  refine .trans ?_ (List.map_append_flatMap_perm _ (·, 0) overflow)
  refine primary.append (.trans ?_ (.of_eq linked))
  exact (List.mergeSort_perm _ _).map _

end BucketArray

theorem filterMap_range {α β : Type} (xs : List α) (g : α → Option β) :
    (List.range xs.length).filterMap (fun i => xs[i]?.bind g) = xs.filterMap g := by
  induction xs with
  | nil => rfl
  | cons x xs ih =>
    rw [List.length_cons, List.range_succ_eq_map, List.filterMap_cons, List.filterMap_map,
      List.filterMap_cons, ← ih]
    rfl

namespace Table

variable {table : Table K V}

/-- The entry that a walk sees at a position. -/
def shown (table : Table K V) (pos : Position) : Option (Entry K V) :=
  match table.slotAt pos with
  | .ok slot => slot.live?.map (·.2)
  | .error _ => none

theorem shown_eq_some {pos : Position} {entry : Entry K V} :
    table.shown pos = some entry ↔ ∃ top, table.Holds pos top entry := by
  unfold shown Holds
  cases table.slotAt pos with
  | error cause => simp
  | ok slot =>
    simp only [Option.map_eq_some_iff, Prod.exists, Except.ok.injEq, ← Slot.live?_eq_some]
    constructor
    · rintro ⟨top, _, live, rfl⟩
      exact ⟨top, live⟩
    · rintro ⟨top, live⟩
      exact ⟨top, _, live, rfl⟩

theorem shown_current {index : Nat} (bound : index < table.current.size) (offset : Nat) :
    table.shown ⟨.current, index, offset⟩ =
      (table.current.chainAt index).slots[offset]?.bind fun slot => slot.live?.map (·.2) := by
  have fetched : table.chain .current index = .ok (table.current.chainAt index) :=
    BucketArray.fetch_eq bound
  unfold shown
  cases found : (table.current.chainAt index).slots[offset]? with
  | some slot => rw [slotAt_eq_ok.mpr ⟨_, fetched, found⟩, Option.bind_some]
  | none =>
    cases read : table.slotAt ⟨.current, index, offset⟩ with
    | error cause => rfl
    | ok slot =>
      obtain ⟨chain, fetched', slot⟩ := slotAt_eq_ok.mp read
      obtain rfl := Except.ok.inj (fetched.symm.trans fetched')
      rw [found] at slot
      cases slot

/-- A write shows at no other position. -/
theorem shown_put {pos other : Position} {top : UInt8} {entry : Entry K V} {slot : Slot K V}
    (holds : table.Holds pos top entry) (here : pos.era = .current) (ne : other ≠ pos) :
    (table.put pos slot).shown other = table.shown other := by
  obtain ⟨era, index, offset⟩ := pos
  obtain rfl : era = .current := here
  obtain ⟨bound, _⟩ := holds_current.mp holds
  obtain ⟨_ | _, index', offset'⟩ := other
  · by_cases bound' : index' < table.current.size
    · rw [shown_current bound', shown_current (by simpa [put] using bound')]
      simp only [put, BucketArray.chainAt_setSlot bound]
      split
      · rename_i same
        subst same
        rw [Chain.slots_set, List.getElem?_set_ne]
        rintro rfl
        exact ne rfl
      · rfl
    · have none (table : Table K V) (out : ¬ index' < table.current.size) :
          table.shown ⟨.current, index', offset'⟩ = none := by
        cases shown : table.shown ⟨.current, index', offset'⟩ with
        | none => rfl
        | some entry =>
          obtain ⟨top, holds⟩ := shown_eq_some.mp shown
          exact absurd (holds_current.mp holds).1 out
      rw [none _ bound', none _ (by simpa [put] using bound')]
  · rfl

/-- The table with the value in one slot changed. -/
def revalue (table : Table K V) (pos : Position) (f : V → V) : Table K V :=
  match table.slotAt pos with
  | .ok ⟨.full top, some entry⟩ =>
    table.put pos (.full top { entry with value := f entry.value })
  | _ => table

theorem Holds.revalue {pos : Position} {top : UInt8} {entry : Entry K V}
    (holds : table.Holds pos top entry) (f : V → V) :
    table.revalue pos f = table.put pos (.full top { entry with value := f entry.value }) := by
  unfold Table.revalue
  rw [show table.slotAt pos = .ok ⟨.full top, some entry⟩ from holds]

theorem isLive_eq (pos : Position) : table.isLive pos = (table.shown pos).isSome := by
  unfold isLive shown
  cases table.slotAt pos with
  | error cause => rfl
  | ok slot => exact Option.isSome_map.symm

end Table

namespace Sweep

variable {table : Table K V}

/-- The slots still to come, in order. -/
def route (buckets : List (Nat × Nat)) (pending : List Position) : List Position :=
  pending ++ buckets.flatMap fun bucket => slotsOf bucket.1 bucket.2

/-- The live slots still to come, in order. -/
def ahead (table : Table K V) (sweep : Sweep) : List Position :=
  (route sweep.buckets sweep.pending).filter fun pos => (table.shown pos).isSome

theorem ahead_cons {table : Table K V} {sweep : Sweep} {pos : Position}
    {buckets : List (Nat × Nat)} {pending : List Position} {entry : Entry K V} (remaining : Nat)
    (shown : table.shown pos = some entry)
    (suffix : (pos :: route buckets pending) <:+ route sweep.buckets sweep.pending)
    (shows : (route sweep.buckets sweep.pending).filterMap table.shown =
      entry :: (route buckets pending).filterMap table.shown) :
    ahead table sweep = pos :: ahead table { buckets, pending, remaining } := by
  obtain ⟨skipped, route⟩ := suffix
  unfold ahead
  rw [← route, List.filterMap_append, List.filterMap_cons_some shown] at shows
  have dark : skipped.filterMap table.shown = [] := List.append_left_eq_self.mp shows
  have none : skipped.filter (fun pos => (table.shown pos).isSome) = [] := by
    refine List.filter_eq_nil_iff.mpr fun other mem => ?_
    rw [List.filterMap_eq_nil_iff.mp dark other mem]
    exact Bool.false_ne_true
  rw [← route, List.filter_append, none, List.nil_append, List.filter_cons, shown,
    Option.isSome_some, if_pos rfl]

theorem firstLive_spec (table : Table K V) (positions : List Position) :
    match firstLive table positions with
    | none => positions.filterMap table.shown = []
    | some (pos, rest) => ∃ entry, table.shown pos = some entry ∧ (pos :: rest) <:+ positions ∧
        positions.filterMap table.shown = entry :: rest.filterMap table.shown := by
  induction positions with
  | nil => rfl
  | cons pos rest ih =>
    unfold firstLive
    rw [Table.isLive_eq]
    cases shown : table.shown pos with
    | some entry => exact ⟨entry, shown, List.suffix_refl _, List.filterMap_cons_some shown⟩
    | none =>
      rw [Option.isSome_none, if_neg Bool.false_ne_true, List.filterMap_cons_none shown]
      generalize firstLive table rest = found at ih
      cases found with
      | none => exact ih
      | some found =>
        obtain ⟨entry, shown, suffix, all⟩ := ih
        exact ⟨entry, shown, suffix.trans (List.suffix_cons _ _), all⟩

theorem locate_spec (table : Table K V) (buckets : List (Nat × Nat)) (pending : List Position) :
    match locate table buckets pending with
    | (none, _, _) => (route buckets pending).filterMap table.shown = []
    | (some pos, buckets', pending') => ∃ entry, table.shown pos = some entry ∧
        (pos :: route buckets' pending') <:+ route buckets pending ∧
        (route buckets pending).filterMap table.shown =
          entry :: (route buckets' pending').filterMap table.shown := by
  induction buckets generalizing pending with
  | nil =>
    have found := firstLive_spec table pending
    unfold locate
    generalize firstLive table pending = answer at found ⊢
    cases answer with
    | none => simpa [route] using found
    | some answer =>
      obtain ⟨entry, shown, suffix, all⟩ := found
      exact ⟨entry, shown, by simpa [route] using suffix, by simpa [route] using all⟩
  | cons bucket buckets ih =>
    have found := firstLive_spec table pending
    unfold locate
    generalize firstLive table pending = answer at found ⊢
    cases answer with
    | some answer =>
      obtain ⟨entry, shown, ⟨skipped, suffix⟩, all⟩ := found
      refine ⟨entry, shown, ⟨skipped, ?_⟩, ?_⟩
      · rw [route, route, ← suffix, List.append_assoc, List.cons_append]
      · rw [route, route, List.filterMap_append, List.filterMap_append, all, List.cons_append]
    | none =>
      have next : route (bucket :: buckets) pending =
          pending ++ route buckets (slotsOf bucket.1 bucket.2) := by
        simp [route]
      have later := ih (slotsOf bucket.1 bucket.2)
      rw [next, List.filterMap_append, found, List.nil_append]
      simp only
      generalize locate table buckets (slotsOf bucket.1 bucket.2) = last at later ⊢
      obtain ⟨_ | pos, buckets', pending'⟩ := last
      · exact later
      · obtain ⟨entry, shown, suffix, all⟩ := later
        exact ⟨entry, shown, suffix.trans (List.suffix_append _ _), all⟩

/-- All slots of a chain, bucket by bucket. -/
theorem flatMap_slotsOf (index depth : Nat) :
    (List.range depth).flatMap (slotsOf index) =
      (List.range (bucketSize * depth)).map fun offset => ⟨.current, index, offset⟩ := by
  induction depth with
  | zero => rfl
  | succ depth ih =>
    rw [List.range_succ, List.flatMap_append, ih, Nat.mul_succ, List.range_add, List.map_append]
    simp [slotsOf]

/-- The route of a fresh walk, up to its order. -/
theorem route_perm (array : BucketArray K V) (start : Nat) :
    (route (array.places start) []).Perm ((List.range array.size).flatMap fun index =>
      (List.range (array.chainAt index).slots.length).map fun offset =>
        ⟨.current, index, offset⟩) := by
  refine ((array.places_perm start).flatMap_right _).trans (.of_eq ?_)
  rw [List.flatMap_assoc, List.flatMap_def, List.flatMap_def]
  refine congrArg _ (List.map_congr_left fun index _ => ?_)
  rw [List.flatMap_map, (array.chainAt index).length_slots]
  exact flatMap_slotsOf index _

theorem nodup_route (array : BucketArray K V) (start : Nat) :
    (route (array.places start) []).Nodup := by
  rw [(route_perm array start).nodup_iff, List.nodup_flatMap]
  constructor
  · intro index _
    exact List.nodup_range.map fun _ _ same => (Position.mk.inj same).2.2
  · refine List.nodup_range.imp fun {index other} ne pos mem mem' => ?_
    obtain ⟨_, _, rfl⟩ := List.mem_map.mp mem
    obtain ⟨_, _, same⟩ := List.mem_map.mp mem'
    exact ne (Position.mk.inj same).2.1.symm

theorem filterMap_route (table : Table K V) (start : Nat) :
    ((route (table.current.places start) []).filterMap table.shown).Perm table.current.entries := by
  refine ((route_perm table.current start).filterMap _).trans (.of_eq ?_)
  rw [List.filterMap_flatMap, BucketArray.entries, List.flatMap_def, List.flatMap_def]
  refine congrArg _ (List.map_congr_left fun index mem => ?_)
  have bound := List.mem_range.mp mem
  rw [List.filterMap_map, Chain.entries, Chain.live, Row.live, List.map_filterMap,
    ← filterMap_range (table.current.chainAt index).slots]
  apply List.filterMap_congr
  intro offset _
  rw [Function.comp_apply, Table.shown_current bound]

variable {rules : Rules K} {map : Map K V} {sweep : Sweep} {env : Env δ}

/-- A walk under way: `pending` is still to be shown, in that order, and `done` was. -/
structure Under (rules : Rules K) (done pending : List (Entry K V)) (table : Table K V)
    (sweep : Sweep) : Prop where
  sound : table.Sound rules
  idle : table.resize = none
  nodup : (route sweep.buckets sweep.pending).Nodup
  here : ∀ pos ∈ route sweep.buckets sweep.pending, pos.era = .current
  shows : (route sweep.buckets sweep.pending).filterMap table.shown = pending
  remaining : sweep.remaining = pending.length
  entries : table.entries.Perm (done ++ pending)

/-- What a walk leaves of a map as it was. -/
structure Passes (before after : Map K V) : Prop where
  count : after.table.count = before.table.count
  exponent : after.table.exponent = before.table.exponent
  seed : after.table.seed = before.table.seed
  latch : after.latch = before.latch
  id : after.id = before.id

theorem next_done {done : List (Entry K V)} (under : Under rules done [] map.table sweep)
    (f : V → V) : Yields (next f sweep) (map, env) fun answer s =>
      answer = (none, sweep) ∧ s = (map, env) := by
  have finished : sweep.remaining = 0 := under.remaining
  unfold next Yields
  rw [if_pos finished]
  exact ⟨rfl, rfl⟩

theorem next_yields {done pending : List (Entry K V)} {entry : Entry K V}
    (under : Under rules done (entry :: pending) map.table sweep) (f : V → V) :
    Yields (next f sweep) (map, env) fun answer s =>
      answer.1 = some (entry.key, f entry.value) ∧
      Under rules ({ entry with value := f entry.value } :: done) pending s.1.table answer.2 ∧
      Passes map s.1 ∧ ∃ pos, map.table.shown pos = some entry ∧
        ahead map.table sweep = pos :: ahead s.1.table answer.2 ∧
        s.1 = { map with table := map.table.revalue pos f } := by
  have left : sweep.remaining ≠ 0 := by simp [under.remaining]
  have located := locate_spec map.table sweep.buckets sweep.pending
  unfold next Yields
  rw [if_neg left, ends_bind, Map.ends_read]
  generalize locate map.table sweep.buckets sweep.pending = answer at located ⊢
  obtain ⟨_ | pos, buckets, pending'⟩ := answer
  · rw [under.shows] at located
    cases located
  · obtain ⟨entry', shown, suffix, shows⟩ := located
    have onward := ahead_cons (sweep.remaining - 1) shown suffix shows
    obtain ⟨skipped, suffix⟩ := suffix
    rw [under.shows] at shows
    obtain ⟨rfl, rest⟩ := List.cons.inj shows
    obtain ⟨top, holds⟩ := Table.shown_eq_some.mp shown
    have nodup := suffix ▸ under.nodup
    have here : pos.era = .current := under.here pos (by simp [← suffix])
    simp only
    rw [ends_bind, Map.ends_onTable]
    apply (Table.updateEntry_yields holds _ env).ends
    rintro entry ⟨after, env⟩ ⟨rfl, rfl⟩
    obtain ⟨sound, apart, all, all'⟩ := under.sound.put holds
      { entry with value := f entry.value } fun _ _ _ => id
    obtain ⟨later, nodup⟩ := List.nodup_cons.mp (List.nodup_append.mp nodup).2.1
    have still : ∀ other ∈ route buckets pending', (map.table.put pos
        (.full top { entry with value := f entry.value })).shown other = map.table.shown other :=
      fun other mem => Table.shown_put holds here fun same => later (same ▸ mem)
    refine ⟨rfl, ⟨sound, by simpa using under.idle, nodup, ?_, ?_, ?_, ?_⟩, ?_, pos, shown, ?_, ?_⟩
    · exact fun pos mem => under.here pos (by simp [← suffix, mem])
    · rw [rest]
      exact List.filterMap_congr still
    · simp [under.remaining]
    · have others : apart.Perm (done ++ pending) :=
        (all.symm.trans (under.entries.trans List.perm_middle)).cons_inv
      exact all'.trans (others.cons _)
    · exact ⟨by simp, by simp, by simp, rfl, rfl⟩
    · rw [onward]
      refine congrArg _ (List.filter_congr fun other mem => ?_)
      rw [still other mem]
    · rw [holds.revalue]

/-- A caller that takes as many entries as it has functions to write their values with. -/
def through : List (V → V) → Sweep → MapAction K V δ (List (K × V) × Sweep)
  | [], sweep => return ([], sweep)
  | f :: writes, sweep => do
    match ← sweep.next f with
    | (none, sweep) => return ([], sweep)
    | (some pair, sweep) =>
      let (pairs, sweep) ← through writes sweep
      return (pair :: pairs, sweep)

theorem leaves_through {γ : Type} {view : Env δ → γ} (writes : List (V → V)) : ∀ {sweep : Sweep},
    Leaves (Env.around view)
      (through writes sweep : MapAction K V δ (List (K × V) × Sweep)) := by
  induction writes with
  | nil => exact leaves_pure
  | cons f writes ih =>
    intro sweep
    apply leaves_next.bind
    intro answer
    obtain ⟨_ | pair, sweep⟩ := answer
    · exact leaves_pure
    · exact ih.bind fun _ => leaves_pure

/-- The entries that `writes` come to, one by one. -/
def written (writes : List (V → V)) (pending : List (Entry K V)) : List (Entry K V) :=
  List.zipWith (fun f entry => { entry with value := f entry.value }) writes pending

/-- The keys stay, written or not. -/
theorem keys_written (writes : List (V → V)) (pending : List (Entry K V)) :
    ((written writes pending ++ pending.drop writes.length).map (·.key)).Sublist
      (pending.map (·.key)) := by
  induction writes generalizing pending with
  | nil => exact .refl _
  | cons f writes ih =>
    cases pending with
    | nil => exact .refl _
    | cons entry pending => exact (ih pending).cons_cons _

theorem through_yields (writes : List (V → V)) :
    ∀ {map : Map K V} {env : Env δ} {sweep : Sweep} {done pending : List (Entry K V)},
      Under rules done pending map.table sweep →
      Yields (through writes sweep) (map, env) fun answer s =>
        answer.1 = (written writes pending).map (fun entry => (entry.key, entry.value)) ∧
        Under rules ((written writes pending).reverse ++ done) (pending.drop writes.length)
          s.1.table answer.2 ∧
        Passes map s.1 := by
  induction writes with
  | nil =>
    intro map env sweep done pending under
    exact ⟨rfl, under, rfl, rfl, rfl, rfl, rfl⟩
  | cons f writes ih =>
    intro map env sweep done pending under
    unfold through Yields
    rw [ends_bind]
    cases pending with
    | nil =>
      apply (next_done under f).ends
      rintro _ _ ⟨rfl, rfl⟩
      exact ⟨rfl, under, rfl, rfl, rfl, rfl, rfl⟩
    | cons entry pending =>
      apply (next_yields under f).ends
      rintro ⟨_, sweep⟩ ⟨between, env⟩ ⟨rfl, under', passes, _⟩
      simp only
      rw [ends_bind]
      apply (ih under').ends
      rintro ⟨pairs, sweep⟩ s ⟨rfl, under'', passes'⟩
      refine ⟨rfl, ?_, ?_⟩
      · simpa [written] using under''
      · exact ⟨passes'.count.trans passes.count, passes'.exponent.trans passes.exponent,
          passes'.seed.trans passes.seed, passes'.latch.trans passes.latch,
          passes'.id.trans passes.id⟩

/-- A fresh walk has every entry before it. -/
theorem under_start (sound : table.Sound rules) (idle : table.resize = none) (start : Nat) :
    ∃ order, order.Perm table.entries ∧ Under rules [] order table
      { buckets := table.current.places start, remaining := table.count } := by
  have shows := filterMap_route table start
  rw [← Table.entries_of_idle idle] at shows
  refine ⟨_, shows, sound, idle, nodup_route _ _, ?_, rfl, ?_, shows.symm⟩
  · intro pos mem
    obtain ⟨index, _, mem⟩ := List.mem_flatMap.mp ((route_perm _ _).mem_iff.mp mem)
    obtain ⟨_, _, rfl⟩ := List.mem_map.mp mem
    rfl
  · rw [shows.length_eq]
    exact sound.count

/-- Once the resize in flight has ended, a walk starts at some index. -/
theorem ofMap_ends {scheme : KeyScheme K δ} {env : Env δ} {post : Sweep → Map K V × Env δ → Prop}
    {fails : Failure → Map K V × Env δ → Prop} (free : map.latch.held = false)
    (finish : Ends (Table.finishGrowth scheme) (map.table, env)
      (fun _ s => ∀ word keys, post
        { buckets := s.1.current.places (Start.ofWord s.1.exponent word).index
          remaining := s.1.count }
        ({ map with table := s.1, latch := ⟨false⟩ }, { s.2 with keys }))
      (fun failure s => fails failure ({ map with table := s.1, latch := ⟨false⟩ }, s.2))) :
    Ends (ofMap scheme) (map, env) post fails := by
  unfold ofMap
  rw [ends_bind, Map.ends_writing free, Map.ends_onTable]
  refine finish.mono ?_ fun _ _ failed => failed
  rintro _ ⟨table, env⟩ starts
  rw [ends_bind, Map.ends_read, ends_bind, Map.ends_onKeys]
  unfold Start.draw
  rw [ends_bind]
  exact (KeyEnv.draw_yields _).ends fun word keys _ => starts word keys

/-- A fresh walk has every entry before it, unless the scheme stalls on one that is to be moved. -/
theorem ofMap_ends_of_held {scheme : KeyScheme K δ} {stalls : Failure → Prop}
    (held : rules.HeldBy scheme stalls) (sound : map.table.Sound rules)
    (free : map.latch.held = false) (env : Env δ) :
    Ends (ofMap scheme) (map, env)
      (fun sweep s => s.1.latch.held = false ∧ s.1.id = map.id ∧
        Table.Steady map.table s.1.table ∧ ∃ order, order.Perm map.table.entries ∧
          Under rules [] order s.1.table sweep)
      (fun failure _ => stalls failure) := by
  refine ofMap_ends free ((Table.finishGrowth_ends held sound env).mono ?_ fun _ _ => id)
  rintro _ ⟨table, env⟩ ⟨shifts, idle⟩ word keys
  obtain ⟨sound', steady⟩ := shifts.sound held sound
  obtain ⟨order, all, under⟩ := under_start sound' idle (Start.ofWord table.exponent word).index
  exact ⟨rfl, rfl, steady, order, all.trans steady.entries, under⟩

theorem ofMap_yields {scheme : KeyScheme K δ} (kept : rules.KeptBy scheme)
    (sound : map.table.Sound rules) (free : map.latch.held = false) (env : Env δ) :
    Yields (ofMap scheme) (map, env) fun sweep s => s.1.latch.held = false ∧ s.1.id = map.id ∧
      Table.Steady map.table s.1.table ∧ ∃ order, order.Perm map.table.entries ∧
        Under rules [] order s.1.table sweep :=
  ofMap_ends_of_held kept sound free env

end Sweep

end GradualMap
