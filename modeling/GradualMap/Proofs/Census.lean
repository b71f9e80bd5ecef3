import GradualMap.Proofs.Dictionary
import GradualMap.Proofs.Passage

/-!
What a table holds, slot by slot. Its count, its tags and its entries say the same, whatever the key
scheme answers. Under a scheme that answers as a reading says, every entry with a hash is moreover
where that hash leads, and it is the only one for its key.
-/

namespace GradualMap

variable {K V δ : Type}

def Tag.isFull : Tag → Bool
  | .full _ => true
  | _ => false

/-- The tag of a slot says whether there is an entry, and under a byte that is not set apart. -/
structure Slot.Labelled (slot : Slot K V) : Prop where
  full_iff : slot.tag.isFull = true ↔ slot.entry.isSome = true
  byte_le : ∀ top, slot.tag = .full top → 5 ≤ top

namespace Slot

variable {slot : Slot K V}

theorem IsFull.labelled (full : slot.IsFull) : slot.Labelled := by
  obtain ⟨top, entry, byte, rfl⟩ := full
  refine ⟨iff_of_true rfl rfl, ?_⟩
  rintro _ ⟨⟩
  exact byte

theorem labelled_of_entry_eq_none (idle : slot.tag.isFull = false) (none : slot.entry = none) :
    slot.Labelled := by
  refine ⟨by simp [idle, none], fun top full => ?_⟩
  rw [full] at idle
  cases idle

theorem Labelled.isSome_live? (labelled : slot.Labelled) : slot.live?.isSome = slot.tag.isFull := by
  obtain ⟨tag, entry⟩ := slot
  have full := labelled.full_iff
  cases tag <;> cases entry <;> simp_all [live?, Tag.isFull]

end Slot

namespace Row

variable {row : List (Slot K V)}

theorem Tidy.labelled {exact : Prop} (tidy : Tidy exact row) : ∀ slot ∈ row, slot.Labelled := by
  intro slot mem
  rcases tidy.mem slot mem with full | rfl | rfl
  · exact full.labelled
  · exact Slot.labelled_of_entry_eq_none rfl rfl
  · exact Slot.labelled_of_entry_eq_none rfl rfl

theorem Vacated.labelled (vacated : Vacated row) : ∀ slot ∈ row, slot.Labelled := by
  intro slot mem
  obtain ⟨evacuated, none⟩ := vacated slot mem
  refine Slot.labelled_of_entry_eq_none ?_ none
  cases tag : slot.tag <;> simp_all [Tag.isFull, Tag.isEvacuated]

/-- The entries of a row are apart in the order of its slots. -/
theorem pairwise_live {R : UInt8 × Entry K V → UInt8 × Entry K V → Prop}
    (apart : (live row).Pairwise R) {i j : Nat} (lt : i < j) {top top' : UInt8}
    {entry entry' : Entry K V} (here : row[i]? = some (.full top entry))
    (there : row[j]? = some (.full top' entry')) : R (top, entry) (top', entry') := by
  obtain ⟨bound, first⟩ := List.getElem?_eq_some_iff.mp here
  obtain ⟨bound', second⟩ := List.getElem?_eq_some_iff.mp there
  have apart' := List.pairwise_filterMap.mp apart
  have related := List.pairwise_iff_getElem.mp apart' i j bound bound' lt
  exact related _ (first ▸ rfl) _ (second ▸ rfl)

end Row

namespace Table

variable {rules : Rules K} {reading : Reading K} {scheme : KeyScheme K δ} {table : Table K V}
  {before after : Table K V × List Event}

/-- All slots: those of the current array, and those of the old one of a resize in flight. -/
def slots (table : Table K V) : List (Slot K V) :=
  table.current.slots ++ (table.resize.map (·.array.slots)).getD []

/-- Count, tags and entries are three accounts of the same contents. -/
structure Tallied (table : Table K V) : Prop where
  count : table.count = table.slots.countP (·.tag.isFull)
  full_iff : ∀ slot ∈ table.slots, slot.tag.isFull = true ↔ slot.entry.isSome = true
  byte_le : ∀ slot ∈ table.slots, ∀ top, slot.tag = .full top → 5 ≤ top

/-- Where an entry is under its hash: in its chain of the current array, or, exactly while the old
chain that leads there waits for its evacuation, in that one. -/
def Seats (table : Table K V) (hash : UInt64) (pos : Position) : Prop :=
  match table.resize with
  | none => pos.era = .current ∧ pos.index = hash.toNat % bucketCount table.exponent
  | some resize =>
    if (resize.array.chainAt (hash.toNat % resize.array.size)).isEvacuated then
      pos.era = .current ∧ pos.index = hash.toNat % bucketCount table.exponent
    else pos.era = .former ∧ pos.index = hash.toNat % resize.array.size

/-- Every entry that is no stray is filed under its hash, and it is the only one for its key. -/
structure Filed (reading : Reading K) (table : Table K V) : Prop where
  seated : ∀ pos top entry, table.Holds pos top entry → reading.same entry.key entry.key = true →
    ∃ hash, reading.code entry.key table.seed = .ok hash ∧ top = topHash hash ∧
      table.Seats hash pos
  alone : ∀ pos pos' top top' entry entry', table.Holds pos top entry →
    table.Holds pos' top' entry' → reading.same entry.key entry'.key = true → pos = pos'

theorem entries_eq_live : table.entries = (Row.live table.slots).map (·.2) := by
  unfold entries former slots
  rw [Row.live_append, List.map_append, BucketArray.entries_eq_live]
  cases table.resize with
  | none => rfl
  | some resize => exact congrArg _ BucketArray.entries_eq_live

theorem Sound.labelled (sound : table.Sound rules) : ∀ slot ∈ table.slots, slot.Labelled := by
  intro slot mem
  rcases List.mem_append.mp mem with mem | mem
  · obtain ⟨i, bound, mem⟩ := BucketArray.mem_slots.mp mem
    exact (sound.chains i bound).tidy.labelled slot mem
  · cases growing : table.resize with
    | none =>
      rw [growing] at mem
      cases mem
    | some resize =>
      rw [growing] at mem
      obtain ⟨i, bound, mem⟩ := BucketArray.mem_slots.mp mem
      rcases (sound.resizing resize growing).chains i bound with vacated | waiting
      · exact vacated.labelled slot mem
      · exact waiting.sound.tidy.labelled slot mem

theorem Sound.tallied (sound : table.Sound rules) : table.Tallied where
  count := by
    rw [sound.count, entries_eq_live, List.length_map, Row.live, List.length_filterMap_eq_countP]
    exact List.countP_congr fun slot mem => by rw [(sound.labelled slot mem).isSome_live?]
  full_iff slot mem := (sound.labelled slot mem).full_iff
  byte_le slot mem := (sound.labelled slot mem).byte_le

/-- A hash leads to one chain. -/
theorem Seats.unique {hash : UInt64} {pos pos' : Position} (seats : table.Seats hash pos)
    (seats' : table.Seats hash pos') : pos.era = pos'.era ∧ pos.index = pos'.index := by
  unfold Seats at *
  cases growing : table.resize with
  | none =>
    simp only [growing] at seats seats'
    exact ⟨seats.1.trans seats'.1.symm, seats.2.trans seats'.2.symm⟩
  | some resize =>
    simp only [growing] at seats seats'
    split at seats
    · rename_i evacuated
      rw [if_pos evacuated] at seats'
      exact ⟨seats.1.trans seats'.1.symm, seats.2.trans seats'.2.symm⟩
    · rename_i waits
      rw [if_neg waits] at seats'
      exact ⟨seats.1.trans seats'.1.symm, seats.2.trans seats'.2.symm⟩

theorem Sound.seated {exact : Prop} (sound : table.Sound (reading.rules exact)) {pos : Position}
    {top : UInt8} {entry : Entry K V} (holds : table.Holds pos top entry)
    (known : reading.same entry.key entry.key = true) :
    ∃ hash, reading.code entry.key table.seed = .ok hash ∧ top = topHash hash ∧
      table.Seats hash pos := by
  obtain ⟨_ | _, index, offset⟩ := pos
  · obtain ⟨bound, slot⟩ := holds_current.mp holds
    have live := Row.mem_live.mpr (List.mem_of_getElem? slot)
    obtain ⟨hash, code, place, byte⟩ := (sound.chains index bound).placed _ live known
    have size := sound.size_eq_of_lt bound
    have settled := sound.settled_of_live bound live
    refine ⟨hash, code, byte.symm, ?_⟩
    unfold Seats
    rw [← size]
    split
    · exact ⟨rfl, place.symm⟩
    · rename_i resize growing
      have evacuated := Chain.isEvacuated_of_vacated (settled resize growing)
      rw [← place, (sound.resizing resize growing).mod_mod] at evacuated
      rw [if_pos evacuated]
      exact ⟨rfl, place.symm⟩
  · obtain ⟨resize, growing, bound, slot⟩ := holds_former.mp holds
    have live := Row.mem_live.mpr (List.mem_of_getElem? slot)
    have waiting := sound.waiting_of_live growing bound live
    obtain ⟨hash, code, place, byte⟩ := waiting.sound.placed _ live known
    have waits := Chain.isEvacuated_of_tidy waiting.sound.tidy
    refine ⟨hash, code, byte.symm, ?_⟩
    simp only [Seats, growing, place, waits, Bool.false_eq_true, if_false, and_self]

/-- The row of the chain that a position is in, as a part of all entries. -/
theorem Holds.row {pos : Position} {top : UInt8} {entry : Entry K V}
    (holds : table.Holds pos top entry) (distinct : Distinct reading table.entries) :
    (Row.live (table.chainAt (pos.era, pos.index)).slots).Pairwise
        (fun a b => reading.same a.2.key b.2.key = false) ∧
      (table.chainAt (pos.era, pos.index)).slots[pos.offset]? = some (.full top entry) := by
  unfold Distinct at distinct
  obtain ⟨_ | _, index, offset⟩ := pos
  · obtain ⟨bound, slot⟩ := holds_current.mp holds
    have part := (BucketArray.sublist_entries bound).trans (List.sublist_append_left _ table.former)
    exact ⟨List.pairwise_map.mp (distinct.sublist part), slot⟩
  · obtain ⟨resize, growing, bound, slot⟩ := holds_former.mp holds
    have all : table.entries = table.current.entries ++ resize.array.entries := by
      simp [entries, former, growing]
    rw [all] at distinct
    have part := (BucketArray.sublist_entries bound).trans
      (List.sublist_append_right table.current.entries _)
    simp only [chainAt, growing, Option.map_some, Option.getD_some]
    exact ⟨List.pairwise_map.mp (distinct.sublist part), slot⟩

/-- Keys that are the same have one hash, which leads both to one chain. -/
theorem Sound.filed {exact : Prop} (coherent : reading.Coherent)
    (sound : table.Sound (reading.rules exact)) (distinct : Distinct reading table.entries) :
    table.Filed reading where
  seated pos top entry holds known := sound.seated holds known
  alone pos pos' top top' entry entry' holds holds' same := by
    obtain ⟨known, known'⟩ := coherent.straysApart _ _ same
    obtain ⟨hash, code, _, seats⟩ := sound.seated holds known
    obtain ⟨hash', code', _, seats'⟩ := sound.seated holds' known'
    rw [coherent.alike _ _ table.seed same, code'] at code
    cases code
    obtain ⟨row, here⟩ := holds.row distinct
    obtain ⟨_, there⟩ := holds'.row distinct
    obtain ⟨era, index, offset⟩ := pos
    obtain ⟨era', index', offset'⟩ := pos'
    obtain ⟨rfl, rfl⟩ : era = era' ∧ index = index' := seats.unique seats'
    rcases Nat.lt_trichotomy offset offset' with lt | rfl | lt
    · have apart : reading.same entry.key entry'.key = false := Row.pairwise_live row lt here there
      rw [same] at apart
      cases apart
    · rfl
    · have apart : reading.same entry'.key entry.key = false := Row.pairwise_live row lt there here
      rw [coherent.symm _ _ same] at apart
      cases apart

/-- An entry is only added for a key that no entry was judged the same as. -/
theorem Step.distinct (agrees : scheme.Agrees reading) (coherent : reading.Coherent)
    (sound : before.1.Sound (reading.rules True)) (step : Step scheme before after)
    (distinct : Distinct reading before.1.entries) : Distinct reading after.1.entries := by
  have held := Reading.rules_heldBy agrees.places True
  cases step with
  | shift shift => exact distinct.perm coherent (shift.sound held sound).2.entries.symm
  | reserve bare =>
    rw [(sound.reserved bare).2]
    exact distinct
  | start idle allocated small =>
    rw [(started_spec sound idle).entries]
    exact distinct
  | fill allocated worked calm absent room hashes =>
    obtain ⟨sound', steady, roomed, admits⟩ :=
      roomed_of_worked held sound allocated worked room hashes
    have others := sound'.absent coherent agrees (fun known => agrees.hashes known hashes) absent
    have all := roomed.entries.trans steady.entries
    refine Distinct.perm coherent (Distinct.cons ?_ ?_)
      (roomed.sound.filled roomed.bound roomed.settled roomed.first admits).2.symm
    · exact distinct.perm coherent all.symm
    · exact fun other mem => others other (roomed.entries.mem_iff.mp mem)
  | @write _ _ _ _ entry holds value =>
    obtain ⟨_, rest, all, all'⟩ := sound.put holds { entry with value } fun _ _ _ => id
    exact distinct.exchange coherent all all' (.inl rfl)
  | rekey holds judges hashes value =>
    obtain ⟨_, rest, all, all'⟩ := sound.rekeyed held holds hashes value
    exact distinct.exchange coherent all all' (.inr (agrees.judges judges).symm)
  | remove holds =>
    exact (List.pairwise_cons.mp (distinct.perm coherent (sound.without holds).2)).2
  | thin idle thinned => exact distinct.of_keys coherent thinned.keys
  | reseed empty seed told => exact distinct
  | clear seed =>
    rw [entries_cleared]
    exact .nil

/-- What a table is under a reading. -/
structure Kept (reading : Reading K) (table : Table K V) : Prop where
  sound : table.Sound (reading.rules True)
  distinct : Distinct reading table.entries

end Table

theorem Reachable.kept {scheme : KeyScheme K δ} {map : Map K V} {reading : Reading K}
    (reachable : Reachable scheme map) (agrees : scheme.Agrees reading)
    (coherent : reading.Coherent) : map.table.Kept reading := by
  refine reachable.keeps (fun map fresh => ?_) fun _ step kept => ?_
  · exact ⟨(fresh _).sound.table, (fresh Rules.any).empty ▸ .nil⟩
  · exact ⟨step.sound (Reading.rules_heldBy agrees.places True) kept.sound,
      step.distinct agrees coherent kept.sound kept.distinct⟩

/-- Whatever calls a map has seen, its count, its tags and its entries agree; and where the scheme
answers as a reading says, every entry with a hash is found, and no two are for one key. -/
theorem contents_accounted {scheme : KeyScheme K δ} {map : Map K V}
    (reachable : Reachable scheme map) :
    map.table.Tallied ∧ ∀ reading : Reading K, scheme.Agrees reading → reading.Coherent →
      map.table.Filed reading := by
  refine ⟨reachable.intact.1.tallied, fun reading agrees coherent => ?_⟩
  have kept := reachable.kept agrees coherent
  exact kept.sound.filed coherent kept.distinct

/-- Twenty-seven entries are counted and found amid a doubling. -/
theorem contents_accounted_amid_doubling : ∃ map : Map UInt64 Nat,
    map.table.exponent = 3 ∧ map.table.resize.isSome = true ∧ map.table.count = 27 ∧
    map.table.Tallied ∧ map.table.Filed (Key.wordReading {}) := by
  obtain ⟨map, grown, exponent, growing, count⟩ := reachable_amid_doubling
  obtain ⟨tallied, filed⟩ := contents_accounted grown
  exact ⟨map, exponent, growing, count, tallied,
    filed (Key.wordReading {}) (Key.word_follows {}).agrees (Key.word_coherent {})⟩

end GradualMap
