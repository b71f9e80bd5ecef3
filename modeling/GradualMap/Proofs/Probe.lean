import GradualMap.Proofs.Place

/-!
Looking a key up. A scan of a tidy row either stops at a slot whose key was judged the same, or has
compared every entry under the hash byte and answers the first free slot.
-/

namespace GradualMap

open GradualMap.Action

variable {K V δ : Type}

/-- What a scan of a row from `offset` on comes to. -/
def Probed (scheme : KeyScheme K δ) (key : K) (top : UInt8) (row : List (Slot K V)) (offset : Nat)
    (free : Option Nat) : Probe → Prop
  | .found i => ∃ j entry, i = offset + j ∧ row[j]? = some (.full top entry) ∧
      scheme.Judges key entry.key true
  | .missing free' =>
      free' = (free <|> (row.findIdx? (·.tag.isEmpty)).map (offset + ·)) ∧
      ∀ item ∈ Row.live row, item.1 = top → scheme.Judges key item.2.key false

variable {scheme : KeyScheme K δ} {key : K} {top : UInt8}

/-- A slot that was passed without a hit. -/
theorem Probed.passed {row : List (Slot K V)} {slot : Slot K V} {offset : Nat} {free : Option Nat}
    {answer : Probe}
    (judged : ∀ item, slot.live? = some item → item.1 = top → scheme.Judges key item.2.key false)
    (h : Probed scheme key top row (offset + 1)
      (if slot.tag.isEmpty then free <|> some offset else free) answer) :
    Probed scheme key top (slot :: row) offset free answer := by
  cases answer with
  | found i =>
    obtain ⟨j, entry, rfl, at', judges⟩ := h
    exact ⟨j + 1, entry, by omega, at', judges⟩
  | missing free' =>
    obtain ⟨rfl, absent⟩ := h
    refine ⟨?_, fun item mem => ?_⟩
    · rw [List.findIdx?_cons]
      generalize row.findIdx? (·.tag.isEmpty) = later
      cases slot.tag.isEmpty <;> cases free <;> cases later <;> simp
      omega
    · rw [Row.live_cons] at mem
      rcases List.mem_append.mp mem with mem | mem
      · exact judged item (by simpa using mem)
      · exact absent item mem

theorem probe_ends {exact : Prop} {row : List (Slot K V)} (tidy : Row.Tidy exact row)
    {offset : Nat} {free : Option Nat} {env : KeyEnv δ} :
    Ends (probe scheme key top row offset free) env
      (fun answer _ => Probed scheme key top row offset free answer)
      (fun failure _ => scheme.Balks failure) := by
  induction tidy generalizing offset free env with
  | spare n =>
    cases n with
    | zero => exact ⟨by cases free <;> rfl, by simp⟩
    | succ n => exact ⟨by cases free <;> rfl, by simp⟩
  | @full slot rest h tidy ih =>
    obtain ⟨top', entry, _, rfl⟩ := h
    have missed {env : KeyEnv δ} (judged : top' = top → scheme.Judges key entry.key false) :
        Ends (probe scheme key top rest (offset + 1) free) env
          (fun answer _ => Probed scheme key top (.full top' entry :: rest) offset free answer)
          (fun failure _ => scheme.Balks failure) := by
      refine ih.mono (fun answer _ h => h.passed ?_) fun _ _ => id
      rintro _ ⟨⟩
      exact judged
    change Ends (do
      let hit ← if top' = top then scheme.same key entry.key else pure false
      if hit then return .found offset
      else probe scheme key top rest (offset + 1) free) env _ _
    by_cases same : top' = top
    · subst same
      rw [if_pos rfl, ends_bind]
      refine KeyScheme.same_ends.mono (fun hit env judges => ?_) fun _ _ => id
      cases hit with
      | true => exact ⟨0, entry, rfl, rfl, judges⟩
      | false => exact missed fun _ => judges
    · rw [if_neg same]
      exact missed fun eq => absurd eq same
  | @hole rest tidy _ ih =>
    change Ends (probe scheme key top rest (offset + 1) (free <|> some offset)) env _ _
    exact ih.mono (fun answer _ h => h.passed (by rintro _ ⟨⟩)) fun _ _ => id

namespace Table

variable {rules : Rules K} {table : Table K V} {hash : UInt64}

/-- What a look-up by hash comes to: the place of an entry whose key was judged the same, or nothing
after all entries under the hash byte were judged to be others. -/
def Located (table : Table K V) (scheme : KeyScheme K δ) (key : K) (hash : UInt64) :
    Option Position → Prop
  | some pos => ∃ entry, table.Holds pos (topHash hash) entry ∧ scheme.Judges key entry.key true
  | none => ∀ item ∈ (table.chainAt (table.home (bucketIndex hash table.exponent))).live,
      item.1 = topHash hash → scheme.Judges key item.2.key false

/-- A look-up that found nothing has compared the chain of the current array, once that is the one
to read. -/
theorem Sound.located_none (sound : table.Sound rules)
    (settled : table.Settled (bucketIndex hash table.exponent)) :
    table.Located scheme key hash none ↔
      ∀ item ∈ (table.current.chainAt (bucketIndex hash table.exponent)).live,
        item.1 = topHash hash → scheme.Judges key item.2.key false := by
  unfold Located
  rw [sound.home_of_settled settled]
  exact Iff.rfl

theorem Sound.entries_eq_nil (sound : table.Sound rules) :
    table.count = 0 ↔ table.entries = [] := by
  rw [sound.count, List.length_eq_zero_iff]

theorem Sound.mem_of_home (sound : table.Sound rules) {index : Nat} {item : UInt8 × Entry K V}
    (mem : item ∈ (table.chainAt (table.home index)).live) : item.2 ∈ table.entries := by
  rw [mem_entries]
  rcases sound.home_cases index with ⟨home, _⟩ | ⟨resize, growing, home, _⟩
  · rw [home, chainAt] at mem
    by_cases bound : index < table.current.size
    · exact .inl ⟨index, bound, List.mem_map_of_mem mem⟩
    · rw [BucketArray.chainAt_of_size_le (Nat.le_of_not_lt bound), Chain.live_empty] at mem
      cases mem
  · have inUse := sound.resizing resize growing
    rw [home, chainAt, growing] at mem
    exact .inr ⟨resize, growing, _, Nat.mod_lt index (Nat.zero_lt_of_lt inUse.cursor_lt),
      List.mem_map_of_mem mem⟩

/-- A table with entries has an array. -/
theorem Sound.allocated_of_filled (sound : table.Sound rules) (filled : table.count ≠ 0) :
    table.current.size ≠ 0 := by
  intro bare
  refine filled (sound.entries_eq_nil.mpr ?_)
  have empty : table.current.entries = [] :=
    BucketArray.entries_eq_nil fun i bound => absurd bound (by omega)
  simp [entries, former, sound.resize_eq_none bare, empty]

theorem Sound.bucketIndex_lt (sound : table.Sound rules) (allocated : table.current.size ≠ 0)
    (hash : UInt64) : bucketIndex hash table.exponent < table.current.size := by
  rw [sound.size_eq allocated]
  exact Nat.mod_lt _ (bucketCount_pos _)

theorem find_ends (sound : table.Sound rules) (env : KeyEnv δ) :
    Ends (table.find scheme key hash) env
      (fun found _ => table.Located scheme key hash found)
      (fun failure _ => scheme.Balks failure) := by
  unfold find
  split
  · rename_i empty
    intro item mem
    have known := sound.mem_of_home mem
    rw [sound.entries_eq_nil.mp empty] at known
    cases known
  · rename_i filled
    have bound := sound.bucketIndex_lt (sound.allocated_of_filled filled) hash
    have home := sound.chain_home bound
    rw [ends_bind, ends_check_ok (sound.source_eq _)]
    simp only
    rw [ends_bind, ends_check_ok home, ends_bind]
    refine (probe_ends (sound.tidy_home _)).mono ?_ fun _ _ => id
    rintro (offset | free) env answer
    · obtain ⟨j, entry, rfl, slot, judges⟩ := answer
      refine ⟨entry, slotAt_eq_ok.mpr ⟨_, home, ?_⟩, judges⟩
      simpa using slot
    · exact answer.2

/-- Every entry that the key could be the same as is where the key is looked for. -/
theorem Sound.absent {reading : Reading K} {exact : Prop} (coherent : reading.Coherent)
    (agrees : scheme.Agrees reading) (sound : table.Sound (reading.rules exact))
    (hashes : reading.same key key = true → reading.code key table.seed = .ok hash)
    (located : table.Located scheme key hash none) :
    ∀ entry ∈ table.entries, reading.same key entry.key = false := by
  intro entry mem
  rw [Bool.eq_false_iff]
  intro same
  obtain ⟨known, known'⟩ := coherent.straysApart _ _ same
  have code : reading.code entry.key table.seed = .ok hash :=
    coherent.alike _ _ table.seed same ▸ hashes known
  have found {size index : Nat} {top : UInt8}
      (admits : (reading.rules exact).admits table.seed size index top entry.key) :
      hash.toNat % size = index ∧ topHash hash = top := by
    obtain ⟨hash', code', place⟩ := admits known'
    obtain rfl : hash = hash' := Except.ok.inj (code.symm.trans code')
    exact place
  have judged {top : UInt8} (byte : topHash hash = top) (shown : (top, entry) ∈
      (table.chainAt (table.home (bucketIndex hash table.exponent))).live) : False := by
    have differ := agrees.judges (located _ shown byte.symm)
    rw [same] at differ
    cases differ
  rcases mem_entries.mp mem with ⟨i, bound, here⟩ | ⟨resize, growing, i, bound, here⟩
  · obtain ⟨⟨top, _⟩, live, rfl⟩ := List.mem_map.mp here
    obtain ⟨place, byte⟩ := found ((sound.chains i bound).placed _ live)
    rw [sound.size_eq_of_lt bound] at place
    have settled := sound.settled_of_live bound live
    apply judged byte
    rw [bucketIndex, place, sound.home_of_settled settled]
    exact live
  · obtain ⟨⟨top, _⟩, live, rfl⟩ := List.mem_map.mp here
    have inUse := sound.resizing resize growing
    have waiting := sound.waiting_of_live growing bound live
    obtain ⟨place, byte⟩ := found (waiting.sound.placed _ live)
    have wraps : bucketIndex hash table.exponent % resize.array.size = i := by
      rw [bucketIndex, ← sound.size_eq_of_growing growing, inUse.mod_mod, place]
    apply judged byte
    rcases sound.home_cases (bucketIndex hash table.exponent) with ⟨_, settled⟩ | former
    · exact absurd (wraps ▸ settled resize growing) waiting.not_vacated
    · obtain ⟨resize', growing', home, _⟩ := former
      obtain rfl := Option.some.inj (growing.symm.trans growing')
      rw [home, wraps, chainAt, growing]
      exact live

end Table

end GradualMap
