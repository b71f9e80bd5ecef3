import GradualMap.Proofs.Dictionary
import GradualMap.Proofs.Passage

/-!
What a look-up reads. It goes through the entries of one chain in their order, so that it comes to
the same, call for call, in two tables that have the same entries there. A resize that only packs
the chains keeps each of these lists; a doubling deals them out anew.
-/

namespace GradualMap

open GradualMap.Action

variable {K V δ α : Type} {scheme : KeyScheme K δ} {key : K}

theorem Action.fst_map {σ β : Type} (f : α → β) (act : Action σ α) (s : σ) :
    ((f <$> act) s).1 = (act s).1.map f := by
  rw [map_eq_pure_bind, bind_apply]
  rcases act s with ⟨_ | _, _⟩ <;> rfl

/-- Compares the key with each entry under its hash byte, up to the first that is judged the
same. -/
def seek (scheme : KeyScheme K δ) (key : K) (top : UInt8) :
    List (UInt8 × Entry K V) → Action (KeyEnv δ) (Option (K × V))
  | [] => return none
  | item :: rest => do
    let hit ← if item.1 = top then scheme.same key item.2.key else pure false
    if hit then return some (item.2.key, item.2.value)
    else seek scheme key top rest

theorem seek_yields {reading : Reading K} (follows : scheme.Follows reading) (top : UInt8)
    (items : List (UInt8 × Entry K V)) : ∀ keys : KeyEnv δ,
      Yields (seek scheme key top items) keys fun _ _ => True := by
  induction items with
  | nil => exact fun _ => trivial
  | cons item items ih =>
    intro keys
    have answered (hit : Bool) (keys : KeyEnv δ) : Yields (if hit
        then return some (item.2.key, item.2.value)
        else seek scheme key top items) keys fun _ _ => True := by
      cases hit with
      | true => trivial
      | false => exact ih keys
    unfold seek Yields
    split
    · rw [ends_bind]
      exact (follows.same_yields key item.2.key keys).ends fun hit keys _ => answered hit keys
    · exact answered false keys

/-- A scan of a row compares its entries and nothing else, whatever comes next. -/
theorem probe_bind_eq {exact : Prop} {top : UInt8} {row : List (Slot K V)}
    (tidy : Row.Tidy exact row) {scanned : Probe → Action (KeyEnv δ) α}
    {sought : Option (K × V) → Action (KeyEnv δ) α}
    (missing : ∀ free, scanned (.missing free) = sought none) :
    ∀ (offset : Nat) (free : Option Nat), (∀ j top entry, row[j]? = some (.full top entry) →
        scanned (.found (offset + j)) = sought (some (entry.key, entry.value))) →
      probe scheme key top row offset free >>= scanned =
        seek scheme key top (Row.live row) >>= sought := by
  induction tidy with
  | spare n =>
    intro offset free _
    rw [Row.live_replicate]
    cases n with
    | zero => exact missing _
    | succ n => exact missing _
  | @full slot rest h tidy ih =>
    intro offset free found
    obtain ⟨top', entry, _, rfl⟩ := h
    have later := ih (offset + 1) free fun j top entry at' => by
      have next := found (j + 1) top entry at'
      rwa [← Nat.add_assoc, Nat.add_right_comm] at next
    have answered (hit : Bool) : (if hit then return Probe.found offset
          else probe scheme key top rest (offset + 1) free) >>= scanned =
        (if hit then return some (entry.key, entry.value)
          else seek scheme key top (Row.live rest)) >>= sought := by
      cases hit with
      | true => exact found 0 top' entry rfl
      | false => exact later
    change (do
      let hit ← if top' = top then scheme.same key entry.key else pure false
      if hit then return Probe.found offset
      else probe scheme key top rest (offset + 1) free) >>= scanned = (do
        let hit ← if top' = top then scheme.same key entry.key else pure false
        if hit then return some (entry.key, entry.value)
        else seek scheme key top (Row.live rest)) >>= sought
    by_cases same : top' = top
    · simp only [same, if_true, bind_assoc, answered]
    · simp only [same, if_false, bind_assoc, answered]
  | @hole rest tidy _ ih =>
    intro offset free found
    exact ih (offset + 1) (free <|> some offset) fun j top entry at' => by
      have next := found (j + 1) top entry at'
      rwa [← Nat.add_assoc, Nat.add_right_comm] at next

namespace Table

variable {rules : Rules K} {table : Table K V} {hash : UInt64}
  {before after : Table K V × List Event}

/-- The entries that a look-up under this hash goes through. -/
def candidates (table : Table K V) (hash : UInt64) : List (UInt8 × Entry K V) :=
  (table.chainAt (table.home (bucketIndex hash table.exponent))).live

theorem find_bind_eq (sound : table.Sound rules) (filled : table.count ≠ 0)
    {located : Option Position → Action (KeyEnv δ) α}
    {sought : Option (K × V) → Action (KeyEnv δ) α} (missing : located none = sought none)
    (found : ∀ pos top entry, table.Holds pos top entry →
      located (some pos) = sought (some (entry.key, entry.value))) :
    table.find scheme key hash >>= located =
      seek scheme key (topHash hash) (table.candidates hash) >>= sought := by
  have bound := sound.bucketIndex_lt (sound.allocated_of_filled filled) hash
  have home := sound.chain_home bound
  have tidy := sound.tidy_home (bucketIndex hash table.exponent)
  have source := sound.source_eq (bucketIndex hash table.exponent)
  unfold candidates
  generalize table.home (bucketIndex hash table.exponent) = place at home tidy source
  obtain ⟨era, index⟩ := place
  unfold find Chain.probe
  rw [if_neg filled, source]
  simp only [check, pure_bind, home, bind_assoc]
  apply probe_bind_eq tidy
  · exact fun _ => missing
  · intro j top entry at'
    refine found ⟨era, index, 0 + j⟩ top entry (slotAt_eq_ok.mpr ⟨_, home, ?_⟩)
    rwa [Nat.zero_add]

/-- A resize that packs leaves every entry under its hash byte. -/
theorem received_of_packs {routing : Routing} (packs : routing.sameSize = true)
    {items : List (UInt8 × Entry K V)} {moved : List (Half × UInt8 × Entry K V)}
    (carried : List.Forall₂ (routing.Carries scheme) items moved) :
    received .low moved = items := by
  induction carried with
  | nil => rfl
  | @cons item head _ _ carries _ ih =>
    obtain ⟨half, top, entry⟩ := head
    obtain ⟨kept, env, run⟩ := carries
    unfold Routing.route at run
    rw [if_pos packs] at run
    cases Except.ok.inj run
    cases kept
    rw [received_cons, ih]
    rfl

theorem Sound.home_of_waiting (sound : table.Sound rules) {resize : Resize K V} {index : Nat}
    (growing : table.resize = some resize) (waits : ¬ resize.Vacated (index % resize.array.size)) :
    table.home index = (.former, index % resize.array.size) := by
  rcases sound.home_cases index with ⟨_, settled⟩ | ⟨resize', growing', home, _⟩
  · exact absurd (settled resize growing) waits
  · cases growing.symm.trans growing'
    exact home

/-- Packing a chain keeps its entries in their order, and every other list as it is. -/
theorem Shift.candidates_eq (sound : before.1.Sound Rules.any) (shift : Shift scheme before after)
    (packs : ∀ resize, before.1.resize = some resize → resize.sameSize = true) (hash : UInt64) :
    after.1.candidates hash = before.1.candidates hash := by
  obtain ⟨sound', steady⟩ := shift.sound (Rules.any_heldBy scheme) sound
  unfold candidates
  rw [steady.exponent]
  cases shift with
  | @move table after log resize old moved growing bound waits carried dealt =>
    have sameSize := packs resize growing
    have inUse := sound.resizing resize growing
    have size : table.current.size = resize.array.size := by
      rw [inUse.size, if_pos sameSize]
    have inside : bucketIndex hash table.exponent < resize.array.size := by
      rw [← size]
      exact sound.bucketIndex_lt (size ▸ Nat.ne_zero_of_lt inUse.cursor_lt) hash
    obtain ⟨array, growing', size', others, vacated⟩ := dealt.vacated resize growing
    simp only at *
    generalize bucketIndex hash table.exponent = index at *
    have here := Nat.mod_eq_of_lt inside
    by_cases same : index = old
    · subst same
      have settled : after.Settled index := by
        intro resize' growing''
        cases growing'.symm.trans growing''
        simp only [size', here]
        exact vacated
      have packed := dealt.filled .low fun high => by cases high
      rw [sound'.home_of_settled settled, sound.home_of_waiting growing (here.symm ▸ waits)]
      simp only [chainAt, growing, Option.map_some, Option.getD_some, here]
      rw [← received_of_packs sameSize carried]
      exact packed.row.live
    · have apart : ∀ half, (resize.routing table.seed).Uses half →
          index ≠ (resize.routing table.seed).target old half := by
        rintro (_ | _) uses
        · exact same
        · exact absurd (uses rfl) (by simp [Resize.routing, sameSize])
      simp only [home, growing, growing', size', here, others index same]
      split
      · exact congrArg Chain.live (dealt.others index apart)
      · simp [chainAt, growing, growing', others index same]
  | @advance table log resize cursor growing ahead bound passed =>
    simp only [home, growing]
    split
    · rfl
    · simp [chainAt, growing]
  | @finish table log resize growing all =>
    have settled : table.Settled (bucketIndex hash table.exponent) := by
      intro resize' growing'
      cases growing.symm.trans growing'
      have inUse := sound.resizing resize growing
      exact all _ (Nat.mod_lt _ (Nat.zero_lt_of_lt inUse.cursor_lt))
    rw [sound.home_of_settled settled]
    rfl

end Table

namespace Map

variable {rules : Rules K} {map : Map K V}

theorem position?_of_filled (free : map.latch.held = false) (filled : map.table.count ≠ 0) :
    map.position? scheme key =
      scheme.hashKey key map.table.seed >>= map.table.find scheme key := by
  have standing : map.latch.check .readDuringWrite = .ok () := by
    simp [Latch.check, free]
  have some : map.isEmpty = false := by simpa [isEmpty] using filled
  unfold position?
  simp only [some, Bool.false_eq_true, if_false, standing, check, pure_bind]

/-- A look-up compares its key with the entries that its hash leads to, in their order. -/
theorem getPair?_eq_seek (sound : map.table.Sound rules) (free : map.latch.held = false)
    (filled : map.table.count ≠ 0) :
    map.getPair? scheme key = (do
      let hash ← scheme.hashKey key map.table.seed
      seek scheme key (topHash hash) (map.table.candidates hash)) := by
  unfold getPair?
  rw [position?_of_filled free filled, bind_assoc]
  refine bind_congr fun hash => ?_
  rw [← bind_pure (seek scheme key (topHash hash) (map.table.candidates hash))]
  refine Table.find_bind_eq sound filled rfl fun pos top entry holds => ?_
  simp only [holds.entryAt, check, pure_bind]

theorem getPair?_of_isEmpty (empty : map.isEmpty = true) :
    map.getPair? scheme key = (do
      Table.probeEmpty scheme key
      return none) := by
  unfold getPair? position?
  rw [if_pos empty]
  simp only [bind_assoc, pure_bind]

theorem get?_eq_map : map.get? scheme key = (·.map (·.2)) <$> map.getPair? scheme key :=
  (map_eq_pure_bind ..).symm

/-- A key is there if it can be shown. -/
theorem contains?_eq_map (sound : map.table.Sound rules) (free : map.latch.held = false) :
    map.contains? scheme key = (·.isSome) <$> map.getPair? scheme key := by
  by_cases empty : map.table.count = 0
  · have none : map.isEmpty = true := decide_eq_true empty
    rw [getPair?_of_isEmpty none]
    unfold contains? position?
    rw [if_pos none]
    simp only [map_eq_pure_bind, bind_assoc, pure_bind]
    rfl
  · rw [getPair?_eq_seek sound free empty]
    unfold contains?
    rw [position?_of_filled free empty]
    simp only [map_eq_pure_bind, bind_assoc]
    refine bind_congr fun hash => ?_
    exact Table.find_bind_eq sound empty rfl fun _ _ _ _ => rfl

/-- The look-ups come to the same on both maps, and ask the scheme the same questions for it. -/
structure LooksAlike (scheme : KeyScheme K δ) (before after : Map K V) : Prop where
  getPair? : ∀ key, after.getPair? scheme key = before.getPair? scheme key
  get? : ∀ key, after.get? scheme key = before.get? scheme key
  contains? : ∀ key, after.contains? scheme key = before.contains? scheme key

/-- The look-ups answer the same on both maps, or fail the same. -/
structure AnswersAlike (scheme : KeyScheme K δ) (before after : Map K V) : Prop where
  getPair? : ∀ key keys, (after.getPair? scheme key keys).1 = (before.getPair? scheme key keys).1
  get? : ∀ key keys, (after.get? scheme key keys).1 = (before.get? scheme key keys).1
  contains? : ∀ key keys,
    (after.contains? scheme key keys).1 = (before.contains? scheme key keys).1

/-- Two maps look alike that have the same entries under every hash. -/
theorem looksAlike_of_candidates {rules' : Rules K} {after : Map K V}
    (sound : map.table.Sound rules) (sound' : after.table.Sound rules')
    (free : map.latch.held = false) (free' : after.latch.held = false)
    (count : after.table.count = map.table.count) (seed : after.table.seed = map.table.seed)
    (same : ∀ hash, after.table.candidates hash = map.table.candidates hash) :
    LooksAlike scheme map after := by
  have pairs (key : K) : after.getPair? scheme key = map.getPair? scheme key := by
    by_cases empty : map.table.count = 0
    · rw [getPair?_of_isEmpty (decide_eq_true empty),
        getPair?_of_isEmpty (decide_eq_true (count.trans empty))]
    · rw [getPair?_eq_seek sound free empty, getPair?_eq_seek sound' free' (count ▸ empty), seed]
      simp only [same]
  refine ⟨pairs, fun key => ?_, fun key => ?_⟩
  · rw [get?_eq_map, get?_eq_map, pairs]
  · rw [contains?_eq_map sound free, contains?_eq_map sound' free', pairs]

section

variable {reading : Reading K} {exact : Prop} {after : Map K V} (follows : scheme.Follows reading)
  (coherent : reading.Coherent)
include follows coherent

/-- Once its key is hashed, a look-up shows what the entries say. -/
theorem getPair?_of_hashed (sound : map.Sound (reading.rules exact))
    (filled : map.table.count ≠ 0) {entries : List (Entry K V)}
    (has : (dictionary reading scheme.traits.replacesKey).Has entries map.table.entries)
    {keys keys' : KeyEnv δ} {hash : UInt64}
    (hashed : scheme.hashKey key map.table.seed keys = (.ok hash, keys')) :
    (map.getPair? scheme key keys).1 = .ok
      (((dictionary reading scheme.traits.replacesKey).find key entries).map Entry.pair) := by
  have sought : Yields (seek scheme key (topHash hash) (map.table.candidates hash)) keys'
      fun _ _ => True := seek_yields follows _ _ keys'
  obtain ⟨answer, keys'', run, _⟩ := yields_iff.mp sought
  have shown : (map.getPair? scheme key keys).1 = .ok answer := by
    rw [getPair?_eq_seek sound.table sound.free filled, bind_apply, hashed]
    exact congrArg Prod.fst run
  have ends : Ends (map.getPair? scheme key) keys
      (fun answer _ => Looked (reading.rules exact) scheme key map answer)
      (fun failure _ => scheme.Fails (fun _ => true) key failure) := getPair?_ends sound keys
  rw [shown, (ends.of_ok shown).find follows coherent (dictionary_lawful coherent _) has]

/-- A look-up shows what the entries say, unless its key is refused. -/
theorem getPair?_finds (sound : map.Sound (reading.rules exact)) {entries : List (Entry K V)}
    (has : (dictionary reading scheme.traits.replacesKey).Has entries map.table.entries)
    (key : K) (keys : KeyEnv δ) :
    Ends (map.getPair? scheme key) keys
      (fun answer _ => answer =
        ((dictionary reading scheme.traits.replacesKey).find key entries).map Entry.pair)
      (fun failure _ => reading.Refuses failure) := by
  have refused (seed : UInt64) {failure : Failure} : (reading.same key key = true ∧
      ∃ refusal, reading.code key seed = .error refusal ∧ failure = .fault (.refused refusal)) →
      reading.Refuses failure := by
    rintro ⟨known, refusal, refused, failed⟩
    exact ⟨key, seed, refusal, known, refused, failed⟩
  by_cases empty : map.table.count = 0
  · have none : entries = [] := (sound.table.entries_eq_nil.mp empty ▸ has.1).eq_nil
    rw [getPair?_of_isEmpty (decide_eq_true empty), ends_bind, none]
    unfold Table.probeEmpty
    split
    · rw [ends_discard]
      exact (follows.reproduces.hashKey_ends key 0 keys).mono (fun _ _ _ => rfl)
        fun _ _ => refused 0
    · exact rfl
  · rcases hashed : scheme.hashKey key map.table.seed keys with ⟨failure | hash, keys'⟩
    · rw [getPair?_eq_seek sound.table sound.free empty, ends_bind, Ends, hashed]
      exact refused _ ((follows.reproduces.hashKey_ends key _ keys).failure hashed)
    · have shown := getPair?_of_hashed follows coherent sound empty has hashed
      unfold Ends
      generalize map.getPair? scheme key keys = result at shown ⊢
      obtain ⟨_ | answer, after⟩ := result
      · cases shown
      · exact Except.ok.inj shown

/-- Two maps with the same entries answer alike, wherever those are, if the scheme tells keys apart
as a reading does. -/
theorem answersAlike_of_perm (sound : map.Sound (reading.rules exact))
    (sound' : after.Sound (reading.rules exact)) (count : after.table.count = map.table.count)
    (seed : after.table.seed = map.table.seed) (distinct : Distinct reading map.table.entries)
    (entries : after.table.entries.Perm map.table.entries) : AnswersAlike scheme map after := by
  have pairs (key : K) (keys : KeyEnv δ) :
      (after.getPair? scheme key keys).1 = (map.getPair? scheme key keys).1 := by
    by_cases empty : map.table.count = 0
    · rw [getPair?_of_isEmpty (decide_eq_true empty),
        getPair?_of_isEmpty (decide_eq_true (count.trans empty))]
    · have filled : after.table.count ≠ 0 := count ▸ empty
      rcases hashed : scheme.hashKey key map.table.seed keys with ⟨failure | hash, keys'⟩
      · rw [getPair?_eq_seek sound.table sound.free empty,
          getPair?_eq_seek sound'.table sound'.free filled, seed, bind_apply, bind_apply, hashed]
      · rw [getPair?_of_hashed follows coherent sound empty ⟨.refl _, distinct⟩ hashed,
          getPair?_of_hashed follows coherent sound' filled
            ⟨entries.symm, distinct.perm coherent entries.symm⟩ (seed ▸ hashed)]
  refine ⟨pairs, fun key keys => ?_, fun key keys => ?_⟩
  · rw [get?_eq_map, get?_eq_map, fst_map, fst_map, pairs]
  · rw [contains?_eq_map sound.table sound.free, contains?_eq_map sound'.table sound'.free, fst_map,
      fst_map, pairs]

end

end Map

end GradualMap
