import GradualMap.Proofs.Herd
import GradualMap.Proofs.Partition

/-!
Where an entry of an old chain will come to. Until the chain is evacuated a walk asks of each entry
which index of the current array it belongs to, and the evacuation has to give the same answer
whenever it comes. It does, because the seed that it goes by stands as long as a doubling has
entries to move.
-/

namespace GradualMap

open GradualMap.Action

variable {K V δ : Type} {scheme : KeyScheme K δ} {reading : Reading K}

/-- The maps that further calls lead to, if none of them aborts. -/
inductive Reaches (scheme : KeyScheme K δ) (start : Map K V) : Map K V → Prop
  | start : Reaches scheme start start
  | called {before after : Map K V} {ρ : Type} {env env' : Env δ} {own own' : ρ}
      {result : Except Failure (Answer K V)} (call : Call K V ρ)
      (reaches : Reaches scheme start before)
      (run : call.attempt scheme ((before, env), own) = (result, ((after, env'), own')))
      (calm : ∀ cause, result ≠ .error (.abort cause)) : Reaches scheme start after

namespace Reaches

variable {start map : Map K V}

theorem reachable (reaches : Reaches scheme start map) (reachable : Reachable scheme start) :
    Reachable scheme map := by
  induction reaches with
  | start => exact reachable
  | called call _ run calm ih => exact .called call ih run calm

theorem keeps {keeps : Table K V → Prop}
    (step : ∀ {before after : Table K V × List Event}, before.1.Sound Rules.any →
      Table.Step scheme before after → keeps before.1 → keeps after.1)
    (reaches : Reaches scheme start map) (reachable : Reachable scheme start)
    (kept : keeps start.table) : keeps map.table := by
  induction reaches with
  | start => exact kept
  | called call earlier run calm ih =>
    obtain ⟨sound, free⟩ := (earlier.reachable reachable).intact
    exact ((call.attempt_leads sound free).after run calm).path.keeps step sound ih

end Reaches

namespace Table

variable {rules : Rules K} {table before after : Table K V} {resize : Resize K V} {old : Nat}
  {exponent : Nat} {seed : UInt64}

/-- An old array has what its slots hold to give away. -/
theorem Holds.mem_former {offset : Nat} {top : UInt8} {entry : Entry K V}
    (holds : table.Holds ⟨.former, old, offset⟩ top entry) (growing : table.resize = some resize) :
    entry ∈ resize.array.entries := by
  obtain ⟨_, growing', bound, slot⟩ := holds_former.mp holds
  obtain rfl := Option.some.inj (growing.symm.trans growing')
  exact BucketArray.mem_entries.mpr
    ⟨old, bound, List.mem_map_of_mem (Row.mem_live.mpr (List.mem_of_getElem? slot))⟩

/-- The table had this exponent and this seed once. As long as a doubling to that exponent has
entries to move, it has both still. -/
def Seeded (exponent : Nat) (seed : UInt64) (table : Table K V) : Prop :=
  exponent < table.exponent ∨ table.exponent = exponent ∧ (table.seed = seed ∨
    ∀ resize, table.resize = some resize → resize.sameSize = false → resize.array.entries = [])

namespace Seeded

/-- Nothing is added to an old array. -/
theorem keep (seeded : before.Seeded exponent seed) (same : after.exponent = before.exponent)
    (stands : after.seed = before.seed)
    (former : ∀ resize', after.resize = some resize' → ∃ resize, before.resize = some resize ∧
      resize.sameSize = resize'.sameSize ∧
      (resize.array.entries = [] → resize'.array.entries = [])) :
    after.Seeded exponent seed := by
  rcases seeded with above | ⟨here, kept | empty⟩
  · exact .inl (same ▸ above)
  · exact .inr ⟨same.trans here, .inl (stands.trans kept)⟩
  · refine .inr ⟨same.trans here, .inr fun resize' growing' doubling => ?_⟩
    obtain ⟨resize, growing, mode, shrinks⟩ := former resize' growing'
    exact shrinks (empty resize growing (mode.trans doubling))

theorem of_empty (seeded : before.Seeded exponent seed) (same : after.exponent = before.exponent)
    (empty : after.entries = []) : after.Seeded exponent seed := by
  rcases seeded with above | ⟨here, _⟩
  · exact .inl (same ▸ above)
  · refine .inr ⟨same.trans here, .inr fun resize growing _ => ?_⟩
    have former := (List.append_eq_nil_iff.mp empty).2
    rwa [Table.former, growing] at former

theorem aside (seeded : before.Seeded exponent seed) (same : after.exponent = before.exponent)
    (stands : after.seed = before.seed) (resize : after.resize = before.resize) :
    after.Seeded exponent seed :=
  seeded.keep same stands fun resize' growing => ⟨resize', resize ▸ growing, rfl, id⟩

theorem shift {before after : Table K V × List Event} (shift : Shift scheme before after)
    (seeded : before.1.Seeded exponent seed) : after.1.Seeded exponent seed := by
  cases shift with
  | @move _ _ _ resize old _ growing bound waits carried dealt =>
    obtain ⟨array, growing', size, others, vacated⟩ := dealt.vacated resize growing
    refine seeded.keep dealt.exponent dealt.seed fun resize' growing'' => ?_
    obtain rfl := Option.some.inj (growing'.symm.trans growing'')
    refine ⟨resize, growing, rfl, fun empty => BucketArray.entries_eq_nil fun i inside => ?_⟩
    by_cases here : i = old
    · exact here ▸ Chain.entries_of_vacated vacated
    · rw [others i here]
      have inside' : i < resize.array.size := size ▸ inside
      have part := BucketArray.sublist_entries inside'
      exact List.sublist_nil.mp (empty ▸ part)
  | advance growing _ _ _ =>
    refine seeded.keep rfl rfl ?_
    rintro _ ⟨⟩
    exact ⟨_, growing, rfl, id⟩
  | finish growing _ =>
    refine seeded.keep rfl rfl ?_
    rintro _ ⟨⟩

theorem shifts {before after : Table K V × List Event} (shifts : Shifts scheme before after)
    (seeded : before.1.Seeded exponent seed) : after.1.Seeded exponent seed := by
  induction shifts with
  | refl => exact seeded
  | tail _ shift ih => exact ih.shift shift

/-- A doubling raises the exponent; a resize at the same size asks for no seed. -/
theorem start (seeded : table.Seeded exponent seed) : table.started.Seeded exponent seed := by
  cases bigger : overloaded (table.count + 1) table.exponent with
  | true =>
    have raised : table.started.exponent = table.exponent + 1 := by simp [started, bigger]
    rcases seeded with above | ⟨here, _⟩
    · exact .inl (by omega)
    · exact .inl (by omega)
  | false =>
    have stands : table.started.exponent = table.exponent := by simp [started, bigger]
    rcases seeded with above | ⟨here, _⟩
    · exact .inl (by omega)
    · refine .inr ⟨stands.trans here, .inr ?_⟩
      rintro _ ⟨⟩ doubling
      simp [bigger] at doubling

theorem write {pos : Position} {top : UInt8} {entry : Entry K V}
    (holds : table.Holds pos top entry) (slot : Slot K V) (seeded : table.Seeded exponent seed) :
    (table.put pos slot).Seeded exponent seed := by
  obtain ⟨_ | _, index, offset⟩ := pos
  · exact seeded.aside rfl rfl rfl
  · obtain ⟨resize, growing, _⟩ := holds_former.mp holds
    have mem := holds.mem_former growing
    refine seeded.keep (put_exponent ..) (put_seed ..) fun resize' growing' => ?_
    simp only [put, growing, Option.map_some, Option.some.injEq] at growing'
    subst growing'
    exact ⟨resize, growing, rfl, fun empty => absurd (empty ▸ mem) List.not_mem_nil⟩

theorem step {before after : Table K V × List Event} (sound : before.1.Sound Rules.any)
    (step : Step scheme before after) (seeded : before.1.Seeded exponent seed) :
    after.1.Seeded exponent seed := by
  cases step with
  | shift shift => exact seeded.shift shift
  | reserve bare => exact seeded.aside rfl rfl rfl
  | start idle allocated small => exact seeded.start
  | fill allocated worked calm absent room hashes =>
    have seeded' := seeded.shifts worked.shifts
    cases room with
    | free first => exact seeded'.aside rfl rfl rfl
    | linked full overflowCount counted => exact seeded'.aside rfl rfl rfl
  | write holds value => exact seeded.write holds _
  | rekey holds judges hashes value => exact seeded.write holds _
  | remove holds => exact seeded.aside rfl rfl rfl
  | thin idle thinned =>
    refine seeded.keep thinned.exponent thinned.seed fun resize' growing' => ?_
    rw [thinned.idle] at growing'
    cases growing'
  | reseed empty fresh told => exact seeded.of_empty rfl (sound.entries_eq_nil.mp empty)
  | clear fresh => exact seeded.of_empty rfl (entries_cleared _ _)

end Seeded

end Table

/-- The seed stands while a doubling has entries to move. -/
theorem Reaches.seed_eq {start map : Map K V} (reaches : Reaches scheme start map)
    (reachable : Reachable scheme start) (exponent : map.table.exponent = start.table.exponent)
    {resize : Resize K V} (growing : map.table.resize = some resize)
    (doubling : resize.sameSize = false) (moves : resize.array.entries ≠ []) :
    map.table.seed = start.table.seed := by
  have seeded : map.table.Seeded start.table.exponent start.table.seed :=
    reaches.keeps (fun sound step => Table.Seeded.step sound step) reachable
      (.inr ⟨rfl, .inl rfl⟩)
  rcases seeded with above | ⟨_, stands | empty⟩
  · omega
  · exact stands
  · exact absurd (empty resize growing doubling) moves

namespace Table

variable {rules : Rules K} {table : Table K V} {resize : Resize K V} {old : Nat}

/-- Of the halves in use one is where the entry belongs. -/
theorem Sound.destined_iff {exact : Prop} (sound : table.Sound (reading.rules exact))
    (growing : table.resize = some resize) (bound : old < resize.array.size)
    {item : UInt8 × Entry K V}
    (admits : (reading.rules exact).admits table.seed resize.array.size old item.1 item.2.key) :
    ∃ half, (resize.routing table.seed).Uses half ∧
      ∀ other, (resize.routing table.seed).Uses other →
        (table.destined reading ((resize.routing table.seed).target old other)
          item.1 item.2.key = true ↔ other = half) := by
  cases mode : resize.sameSize with
  | true =>
    refine ⟨.low, by simp [Routing.Uses], fun other uses => ?_⟩
    cases other with
    | low => simp [destined, growing, mode]
    | high => exact absurd (uses rfl) (by simp [Resize.routing, mode])
  | false =>
    have uses (half : Half) : (resize.routing table.seed).Uses half := fun _ => mode
    have apart := destined_high sound growing mode bound admits
    have low : (resize.routing table.seed).target old .low = old := rfl
    have high : (resize.routing table.seed).target old .high = old + resize.array.size := rfl
    cases stays : table.destined reading old item.1 item.2.key with
    | true =>
      refine ⟨.low, uses _, fun other _ => ?_⟩
      cases other <;> simp [low, high, apart, stays]
    | false =>
      refine ⟨.high, uses _, fun other _ => ?_⟩
      cases other <;> simp [low, high, apart, stays]

end Table

/-- An entry is sent to an index that it was said to belong to. -/
theorem Routing.Sends.destined (reproduces : scheme.Reproduces reading) {exact : Prop}
    {table : Table K V} {resize : Resize K V} {old : Nat}
    (sound : table.Sound (reading.rules exact)) (growing : table.resize = some resize)
    (bound : old < resize.array.size) {top : UInt8} {key : K} {routed : Half × UInt8}
    (admits : (reading.rules exact).admits table.seed resize.array.size old top key)
    (sends : (resize.routing table.seed).Sends scheme top key routed) :
    table.destined reading ((resize.routing table.seed).target old routed.1) top key = true := by
  unfold Table.destined
  simp only [growing]
  cases sends with
  | packs same =>
    have mode : resize.sameSize = true := same
    simp [mode]
  | @splits hash doubles known hashes =>
    have mode : resize.sameSize = false := doubles
    have self : reading.same key key = true := (reproduces.places.self known).symm
    obtain ⟨_, code, place, _⟩ := admits self
    obtain rfl := Except.ok.inj ((reproduces.places.hashes self hashes).symm.trans code)
    have index := sound.bucketIndex_eq growing mode place
    rcases Nat.mod_two_eq_zero_or_one (hash.toNat / resize.array.size) with even | odd
    · simp [mode, self, code, index, even, Routing.target, Resize.routing]
    · simp [mode, self, code, index, odd, Routing.target, Resize.routing]
  | strays doubles stray hashes =>
    have mode : resize.sameSize = false := doubles
    have self : reading.same key key = false := (reproduces.places.self stray).symm
    have pos := Nat.zero_lt_of_lt bound
    rcases Nat.mod_two_eq_zero_or_one top.toNat with even | odd
    · simp [mode, self, even, Routing.target, Nat.div_eq_of_lt bound]
    · simp [mode, self, odd, Routing.target, Resize.routing, Nat.add_div_right _ pos,
        Nat.div_eq_of_lt bound]

theorem Reachable.placed (places : scheme.Places reading) {map : Map K V}
    (reachable : Reachable scheme map) : map.table.Sound (reading.rules True) :=
  reachable.keeps (fun _ fresh => (fresh _).sound.table)
    fun _ step sound => step.sound (Reading.rules_heldBy places True) sound

theorem bucketCount_injective {a b : Nat} (same : bucketCount a = bucketCount b) : a = b :=
  Nat.pow_right_injective (Nat.le_refl 2) same

theorem getElem?_of_forall₂ {α β : Type} {R : α → β → Prop} {xs : List α} {ys : List β}
    (h : List.Forall₂ R xs ys) {i : Nat} {x : α} (here : xs[i]? = some x) :
    ∃ y, ys[i]? = some y ∧ R x y := by
  induction h generalizing i with
  | nil => cases here
  | cons head _ ih =>
    cases i with
    | zero =>
      obtain rfl := Option.some.inj here
      exact ⟨_, rfl, head⟩
    | succ i => exact ih here

/-- A live slot among the entries of its row. -/
theorem Row.getElem?_live {row : List (Slot K V)} {offset : Nat} {top : UInt8}
    {entry : Entry K V} (slot : row[offset]? = some (.full top entry)) :
    (live row)[(live (row.take offset)).length]? = some (top, entry) := by
  obtain ⟨before, after, rfl, rfl, _⟩ := eq_append_of_getElem? slot
  simp

/-- An entry among those that its half receives. -/
theorem getElem?_received {moved : List (Half × UInt8 × Entry K V)} {rank : Nat} {half : Half}
    {item : UInt8 × Entry K V} (at_rank : moved[rank]? = some (half, item)) :
    (received half moved)[(received half (moved.take rank)).length]? = some item := by
  obtain ⟨bound, here⟩ := List.getElem?_eq_some_iff.mp at_rank
  have split : moved = moved.take rank ++ (half, item) :: moved.drop (rank + 1) := by
    rw [← here, ← List.drop_eq_getElem_cons bound, List.take_append_drop]
  have parts : received half moved =
      received half (moved.take rank) ++ received half ((half, item) :: moved.drop (rank + 1)) := by
    conv_lhs => rw [split]
    simp [received]
  rw [parts, received_cons, if_pos rfl]
  simp

theorem Row.Packed.getElem? {items : List (UInt8 × Entry K V)} {row : List (Slot K V)}
    (packed : Row.Packed items row) {i : Nat} {item : UInt8 × Entry K V}
    (here : items[i]? = some item) : row[i]? = some (.full item.1 item.2) := by
  obtain ⟨spare, rfl⟩ := packed
  have bound := (List.getElem?_eq_some_iff.mp here).1
  rw [List.getElem?_append_left (by simpa using bound), List.getElem?_map, here, Option.map_some]

namespace Table

/-- Old chain `old` was split, and what its slot `offset` held is where it was put in current chain
`index`. -/
def Brings (scheme : KeyScheme K δ) (resize : Resize K V) (old offset index : Nat)
    (entry : Entry K V) (before after : Table K V) : Prop :=
  let rank := (Row.live ((resize.array.chainAt old).slots.take offset)).length
  ∃ moved array half byte, Parted scheme resize old moved array before after ∧
    moved[rank]? = some (half, byte, entry) ∧
    after.Holds ⟨.current, index, (received half (moved.take rank)).length⟩ byte entry

/-- What an evacuation does with one entry. -/
theorem Parted.brings {table after : Table K V} {rules : Rules K} {resize : Resize K V}
    {old offset : Nat} {moved : List (Half × UInt8 × Entry K V)} {array : BucketArray K V}
    {top : UInt8} {entry : Entry K V} (sound : table.Sound rules)
    (growing : table.resize = some resize)
    (holds : table.Holds ⟨.former, old, offset⟩ top entry)
    (parted : Parted scheme resize old moved array table after) :
    ∃ routed, (resize.routing table.seed).Sends scheme top entry.key routed ∧
      (resize.routing table.seed).Uses routed.1 ∧
      Brings scheme resize old offset ((resize.routing table.seed).target old routed.1) entry
        table after := by
  obtain ⟨resize', growing', bound, slot⟩ := holds_former.mp holds
  obtain rfl := Option.some.inj (growing.symm.trans growing')
  obtain ⟨⟨half, byte, entry'⟩, sent, rfl, sends⟩ :=
    getElem?_of_forall₂ parted.forwarded (Row.getElem?_live slot)
  have uses : (resize.routing table.seed).Uses half := sends.uses
  have target := (sound.resizing resize growing).target_lt bound uses
  refine ⟨(half, byte), sends, uses, moved, array, half, byte, parted, sent, ?_⟩
  exact holds_current.mpr ⟨parted.size ▸ target,
    (parted.filled half uses).row.getElem? (getElem?_received sent)⟩

/-- An evacuation brings an entry to an index that it was said to belong to. -/
theorem evacuate_brings (reproduces : scheme.Reproduces reading) {table : Table K V}
    (sound : table.Sound (reading.rules True)) {resize : Resize K V}
    (growing : table.resize = some resize) {old offset : Nat} {top : UInt8} {entry : Entry K V}
    (holds : table.Holds ⟨.former, old, offset⟩ top entry) (env : Env δ) :
    Yields (evacuate scheme old) (table, env) fun _ s => ∃ half,
      (resize.routing table.seed).Uses half ∧
      table.destined reading ((resize.routing table.seed).target old half) top entry.key = true ∧
      Brings scheme resize old offset ((resize.routing table.seed).target old half) entry
        table s.1 := by
  obtain ⟨_, growing', bound, slot⟩ := holds_former.mp holds
  obtain rfl := Option.some.inj (growing.symm.trans growing')
  have live := Row.mem_live.mpr (List.mem_of_getElem? slot)
  have waiting := sound.waiting_of_live growing bound live
  have answers : ∀ item ∈ (resize.array.chainAt old).live,
      scheme.Answers table.seed item.2.key := by
    intro item mem
    refine reproduces.answers fun known => ?_
    obtain ⟨hash, code, _⟩ := waiting.sound.placed item mem known
    exact ⟨hash, code⟩
  refine (evacuate_parts reproduces.sincere (sound.any trivial) growing bound
    (Chain.isEvacuated_of_tidy waiting.sound.tidy) answers env).mono ?_
  rintro _ s ⟨moved, array, parted, _⟩
  obtain ⟨routed, sends, uses, brings⟩ := parted.brings sound growing holds
  exact ⟨routed.1, uses,
    sends.destined reproduces sound growing bound (waiting.sound.placed _ live), brings⟩

/-- What an entry belongs to changes with the exponent, and in a doubling with the seed. -/
theorem destined_congr {before after : Table K V} {resize resize' : Resize K V}
    (growing : before.resize = some resize) (growing' : after.resize = some resize')
    (size : resize'.array.size = resize.array.size) (mode : resize'.sameSize = resize.sameSize)
    (exponent : after.exponent = before.exponent)
    (seed : resize.sameSize = false → after.seed = before.seed) (index : Nat) (top : UInt8)
    (key : K) :
    after.destined reading index top key = before.destined reading index top key := by
  unfold destined
  simp only [growing, growing', size, mode, exponent]
  cases packs : resize.sameSize with
  | true => rfl
  | false => rw [seed packs]

/-- A resize from as many chains, of the same kind, was started at the same exponent. -/
theorem Sound.exponent_eq {rules rules' : Rules K} {before after : Table K V}
    (sound : before.Sound rules) (sound' : after.Sound rules') {resize resize' : Resize K V}
    (growing : before.resize = some resize) (growing' : after.resize = some resize')
    (size : resize'.array.size = resize.array.size) (mode : resize'.sameSize = resize.sameSize) :
    after.exponent = before.exponent := by
  apply bucketCount_injective
  rw [← sound.size_eq_of_growing growing, ← sound'.size_eq_of_growing growing',
    (sound.resizing resize growing).size, (sound'.resizing resize' growing').size, mode, size]

/-- An index that is read in an old chain is fed by that chain. -/
theorem Sound.mod_of_home {rules : Rules K} {table : Table K V} (sound : table.Sound rules)
    {resize : Resize K V} (growing : table.resize = some resize) {old index : Nat}
    (home : table.home index = (.former, old)) : index % resize.array.size = old := by
  rcases sound.home_cases index with ⟨current, _⟩ | ⟨resize', growing', former, _⟩
  · rw [home] at current
    cases current
  · obtain rfl := Option.some.inj (growing.symm.trans growing')
    rw [home] at former
    exact (Prod.mk.inj former).2.symm

/-- Of the indices that read an entry in its old chain one claims it, whoever asks. -/
theorem Sound.claims (reproduces : scheme.Reproduces reading) {table : Table K V}
    (sound : table.Sound (reading.rules True)) {resize : Resize K V}
    (growing : table.resize = some resize) {old offset : Nat} {top : UInt8} {entry : Entry K V}
    (holds : table.Holds ⟨.former, old, offset⟩ top entry) :
    ∃ half, (resize.routing table.seed).Uses half ∧
      table.source ((resize.routing table.seed).target old half) = .ok (.former, old) ∧
      (∀ other, (resize.routing table.seed).Uses other →
        (table.destined reading ((resize.routing table.seed).target old other) top entry.key = true
          ↔ other = half)) ∧
      ∀ c < table.current.size, table.source c = .ok (.former, old) →
        ∀ env, Yields (table.destinedFor scheme entry.key top c) env
          fun answer _ => answer = decide (c = (resize.routing table.seed).target old half) := by
  obtain ⟨_, growing', bound, slot⟩ := holds_former.mp holds
  obtain rfl := Option.some.inj (growing.symm.trans growing')
  have live := Row.mem_live.mpr (List.mem_of_getElem? slot)
  have waiting := sound.waiting_of_live growing bound live
  have admits := waiting.sound.placed _ live
  obtain ⟨half, uses, destined⟩ := sound.destined_iff growing bound admits
  have wraps := Resize.target_mod bound table.seed half
  refine ⟨half, uses, ?_, destined, ?_⟩
  · rw [sound.source_eq, home_of_waiting sound growing (wraps.symm ▸ waiting.not_vacated), wraps]
  · intro c inside source env
    rw [sound.source_eq] at source
    obtain ⟨other, uses', feeds⟩ := sound.half_of growing inside
    rw [sound.mod_of_home growing (Except.ok.inj source)] at feeds
    subst feeds
    have hashed (known : reading.same entry.key entry.key = true) :
        ∃ hash, reading.code entry.key table.seed = .ok hash := by
      obtain ⟨hash, code, _⟩ := admits known
      exact ⟨hash, code⟩
    refine (destinedFor_yields reproduces hashed top _ env).mono ?_
    rintro _ _ rfl
    rw [Bool.eq_iff_iff, destined other uses', decide_eq_true_iff]
    constructor
    · rintro rfl
      rfl
    · intro same
      by_contra apart
      exact Routing.target_ne (Nat.zero_lt_of_lt bound) old apart same

end Table

/-- Of the indices that read an entry in its old chain one claims it, whoever asks and whenever, and
that is the one whose chain the entry comes to. -/
theorem evacuation_brings_entry_where_destined (reproduces : scheme.Reproduces reading)
    {map : Map K V} (reachable : Reachable scheme map) {resize : Resize K V}
    (growing : map.table.resize = some resize) {old offset : Nat} {top : UInt8} {entry : Entry K V}
    (holds : map.table.Holds ⟨.former, old, offset⟩ top entry) :
    ∃ index < map.table.current.size, map.table.source index = .ok (.former, old) ∧
      (∀ c < map.table.current.size, map.table.source c = .ok (.former, old) →
        ∀ env, Yields (map.table.destinedFor scheme entry.key top c) env
          fun answer _ => answer = decide (c = index)) ∧
      ∀ {after : Map K V} {resize' : Resize K V} {value : V}, Reaches scheme map after →
        after.table.resize = some resize' → resize'.array.size = resize.array.size →
        resize'.sameSize = resize.sameSize →
        after.table.Holds ⟨.former, old, offset⟩ top ⟨entry.key, value⟩ →
        ∀ env, Yields (Table.evacuate scheme old) (after.table, env) fun _ s =>
          Table.Brings scheme resize' old offset index ⟨entry.key, value⟩ after.table s.1 := by
  have sound := reachable.placed reproduces.places
  obtain ⟨half, uses, source, destined, claims⟩ := sound.claims reproduces growing holds
  obtain ⟨_, growing', bound, _⟩ := Table.holds_former.mp holds
  obtain rfl := Option.some.inj (growing.symm.trans growing')
  refine ⟨_, (sound.resizing resize growing).target_lt bound uses, source, claims, ?_⟩
  intro after resize' value reaches growing'' size mode holds' env
  have sound' := (reaches.reachable reachable).placed reproduces.places
  have exponent := sound.exponent_eq sound' growing growing'' size mode
  -- A map that ran empty in between has drawn a new seed, but then this entry did not wait.
  have seed : resize.sameSize = false → after.table.seed = map.table.seed := fun doubling =>
    reaches.seed_eq reachable exponent growing'' (mode.trans doubling)
      (List.ne_nil_of_mem (holds'.mem_former growing''))
  refine (Table.evacuate_brings reproduces sound' growing'' holds' env).mono ?_
  rintro _ s ⟨half', uses', destined', brings⟩
  have targets (half : Half) : (resize'.routing after.table.seed).target old half =
      (resize.routing map.table.seed).target old half := by
    cases half <;> simp [Routing.target, Resize.routing, size]
  rw [Table.destined_congr growing growing'' size mode exponent seed, targets] at destined'
  have same := (destined half' fun high => mode.symm.trans (uses' high)).mp destined'
  rwa [same, targets] at brings

/-- A NaN in the second slot of a chain of four is claimed by one index, and still comes there when
an insertion has moved the chains before. -/
theorem evacuation_brings_nan_where_destined :
    ∃ (map after : Map (Floating .binary32) Nat) (resize resize' : Resize (Floating .binary32) Nat)
      (nan : Floating .binary32),
      map.table.resize = some resize ∧ resize.cursor = 1 ∧ resize.array.size = 4 ∧
      after.table.resize = some resize' ∧ resize'.cursor = 3 ∧ nan.isNaN = true ∧
      map.table.Holds ⟨.former, 3, 1⟩ 31 ⟨nan, 14⟩ ∧
      ∃ index < map.table.current.size, map.table.source index = .ok (.former, 3) ∧
        (∀ c < map.table.current.size, map.table.source c = .ok (.former, 3) →
          ∀ env, Yields (map.table.destinedFor (Key.floating .binary32 {}) nan 31 c) env
            fun answer _ => answer = decide (c = index)) ∧
        ∀ env : Env Unit, Yields (Table.evacuate (Key.floating .binary32 {}) 3) (after.table, env)
          fun _ s => Table.Brings (Key.floating .binary32 {}) resize' 3 1 index ⟨nan, 14⟩
            after.table s.1 := by
  let nan : Floating .binary32 := ⟨0x7fc00000⟩
  let pairs := (List.range 27).map fun n => (if n % 2 = 0 then nan else .ofNat .binary32 n, n)
  let insert : Call (Floating .binary32) Nat Unit := .insert (.ofNat .binary32 100) 100
  have made : Reachable (V := Nat) (Key.floating .binary32 {}) _ := .made .empty (.ample {}) rfl
  obtain ⟨map, after, reachable, reaches, stands, stands', holds, holds'⟩ :
      ∃ map after : Map (Floating .binary32) Nat, Reachable (Key.floating .binary32 {}) map ∧
        Reaches (Key.floating .binary32 {}) map after ∧
        (map.table.resize.map fun resize => (resize.cursor, resize.array.size, resize.sameSize)) =
          some (1, 4, false) ∧
        (after.table.resize.map fun resize =>
          (resize.cursor, resize.array.size, resize.sameSize)) = some (3, 4, false) ∧
        map.table.Holds ⟨.former, 3, 1⟩ 31 ⟨nan, 14⟩ ∧
        after.table.Holds ⟨.former, 3, 1⟩ 31 ⟨nan, 14⟩ := by
    refine ⟨_, _, made.after (.extend pairs) (.ample {}) () (by decide +kernel),
      .called insert .start (show insert.attempt _ ((_, .ample {}), ()) = _ from rfl)
        (calm_of_isSome ?_), ?_⟩
    · decide +kernel
    · unfold Table.Holds
      decide +kernel
  obtain ⟨resize, growing, facts⟩ := Option.map_eq_some_iff.mp stands
  obtain ⟨resize', growing', facts'⟩ := Option.map_eq_some_iff.mp stands'
  simp only [Prod.mk.injEq] at facts facts'
  obtain ⟨one, four, doubles⟩ := facts
  obtain ⟨three, four', doubles'⟩ := facts'
  obtain ⟨index, inside, source, claimed, brings⟩ := evacuation_brings_entry_where_destined
    Key.floating_follows.reproduces reachable growing holds
  refine ⟨map, after, resize, resize', nan, growing, one, four, growing', three, rfl, holds, index,
    inside, source, claimed, ?_⟩
  exact brings reaches growing' (four'.trans four.symm) (doubles'.trans doubles.symm) holds'

end GradualMap
