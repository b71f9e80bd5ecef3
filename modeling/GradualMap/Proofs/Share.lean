import GradualMap.Proofs.Place
import Mathlib.Data.List.Perm.Basic

/-!
Which entries belong to an index of the current array. While a resize is in flight, an old chain that
waits is read under each index it will feed, and every entry of it belongs to exactly one of them.
-/

namespace GradualMap

open GradualMap.Action

variable {K V δ : Type}

namespace Table

variable {reading : Reading K} {exact : Prop} {table : Table K V} {resize : Resize K V}
  {index : Nat}

/-- Whether an entry of an old chain will come to `index`. -/
def destined (reading : Reading K) (table : Table K V) (index : Nat) (top : UInt8) (key : K) :
    Bool :=
  match table.resize with
  | none => true
  | some resize => resize.sameSize ||
      if reading.same key key then
        match reading.code key table.seed with
        | .ok hash => bucketIndex hash table.exponent = index
        | .error _ => false
      else index / resize.array.size % 2 = top.toNat % 2

def wanted (reading : Reading K) (table : Table K V) (only : Option Nat)
    (item : UInt8 × Entry K V) : Bool :=
  match only with
  | none => true
  | some index => table.destined reading index item.1 item.2.key

/-- The index that entries must be destined for, if they are read in an old chain. -/
def only (table : Table K V) (index : Nat) : Option Nat :=
  if (table.home index).1 = .former then some index else none

def share (reading : Reading K) (table : Table K V) (index : Nat) : List (UInt8 × Entry K V) :=
  (table.chainAt (table.home index)).live.filter (table.wanted reading (table.only index))

theorem destinedFor_yields {scheme : KeyScheme K δ} (reproduces : scheme.Reproduces reading)
    {key : K}
    (hashed : reading.same key key = true → ∃ hash, reading.code key table.seed = .ok hash)
    (top : UInt8) (index : Nat) (env : KeyEnv δ) :
    Yields (table.destinedFor scheme key top index) env
      fun answer _ => answer = table.destined reading index top key := by
  unfold destinedFor destined
  cases table.resize with
  | none => rfl
  | some resize =>
    simp only
    split
    · rename_i same
      rw [same]
      rfl
    · rename_i differ
      rw [Bool.eq_false_iff.mpr differ, Bool.false_or, Yields, ends_bind]
      apply (reproduces.selfEqual_yields key env).ends
      rintro known env rfl
      split
      · rename_i known
        obtain ⟨hash, code⟩ := hashed known
        rw [ends_bind]
        apply (reproduces.rehash_yields (fun _ => code) env).ends
        intro again env eq
        rw [eq known, code]
        exact rfl
      · exact rfl

theorem share_of_settled (sound : table.Sound (reading.rules exact))
    (settled : table.Settled index) :
    table.share reading index = (table.current.chainAt index).live := by
  unfold share only
  rw [sound.home_of_settled settled, if_neg (by simp)]
  exact List.filter_eq_self.mpr fun _ _ => rfl

theorem home_of_waiting (sound : table.Sound (reading.rules exact))
    (growing : table.resize = some resize)
    (waits : ¬ resize.Vacated (index % resize.array.size)) :
    table.home index = (.former, index % resize.array.size) := by
  rcases sound.home_cases index with ⟨_, settled⟩ | ⟨resize', growing', home, _⟩
  · exact absurd (settled resize growing) waits
  · obtain rfl := Option.some.inj (growing.symm.trans growing')
    exact home

theorem share_of_waiting (sound : table.Sound (reading.rules exact))
    (growing : table.resize = some resize)
    (waits : ¬ resize.Vacated (index % resize.array.size)) :
    table.share reading index =
      (resize.array.chainAt (index % resize.array.size)).live.filter fun item =>
        table.destined reading index item.1 item.2.key := by
  unfold share only
  rw [home_of_waiting sound growing waits, if_pos rfl, chainAt, growing]
  rfl

/-- A doubling leads a hash to the old chain's index or to the one an old array further up. -/
theorem Sound.bucketIndex_eq {rules : Rules K} (sound : table.Sound rules)
    (growing : table.resize = some resize) (doubling : resize.sameSize = false) {old : Nat}
    {hash : UInt64} (place : hash.toNat % resize.array.size = old) :
    bucketIndex hash table.exponent =
      old + resize.array.size * (hash.toNat / resize.array.size % 2) := by
  have size := (sound.resizing resize growing).size
  rw [doubling, if_neg Bool.false_ne_true] at size
  rw [bucketIndex, ← sound.size_eq_of_growing growing, size, Nat.mul_comm, Nat.mod_mul, place]

/-- An entry of an old chain belongs to one of the two indices the chain feeds. -/
theorem destined_high (sound : table.Sound (reading.rules exact))
    (growing : table.resize = some resize) (doubling : resize.sameSize = false) {old : Nat}
    (bound : old < resize.array.size) {item : UInt8 × Entry K V}
    (admits : (reading.rules exact).admits table.seed resize.array.size old item.1 item.2.key) :
    table.destined reading (old + resize.array.size) item.1 item.2.key =
      !table.destined reading old item.1 item.2.key := by
  unfold destined
  simp only [growing, doubling, Bool.false_or]
  by_cases known : reading.same item.2.key item.2.key = true
  · obtain ⟨hash, code, place, _⟩ := admits known
    simp only [known, if_true, code]
    rw [sound.bucketIndex_eq growing doubling place]
    rcases Nat.mod_two_eq_zero_or_one (hash.toNat / resize.array.size) with even | odd
    · simp [even]
      omega
    · simp [odd]
      omega
  · simp only [known, Bool.false_eq_true, if_false]
    have pos : 0 < resize.array.size := Nat.zero_lt_of_lt bound
    rw [Nat.add_div_right _ pos, Nat.div_eq_of_lt bound]
    rcases Nat.mod_two_eq_zero_or_one item.1.toNat with even | odd
    · simp [even]
    · simp [odd]

/-- The entries of index `old` in both arrays are those that belong to the indices it feeds. -/
theorem share_split (sound : table.Sound (reading.rules exact))
    (growing : table.resize = some resize) {old : Nat} (bound : old < resize.array.size) :
    (if resize.sameSize then table.share reading old
      else table.share reading old ++ table.share reading (old + resize.array.size)).Perm
      ((table.current.chainAt old).live ++
        (table.current.chainAt (old + resize.array.size)).live ++
        (resize.array.chainAt old).live) := by
  have inUse := sound.resizing resize growing
  have low : old % resize.array.size = old := Nat.mod_eq_of_lt bound
  have high : (old + resize.array.size) % resize.array.size = old := by
    rw [Nat.add_mod_right, low]
  rcases inUse.chains old bound with vacated | waiting
  · have none : (resize.array.chainAt old).live = [] := vacated.live
    have settled {i : Nat} (wraps : i % resize.array.size = old) : table.Settled i := by
      intro resize' growing'
      obtain rfl := Option.some.inj (growing.symm.trans growing')
      exact wraps ▸ vacated
    rw [share_of_settled sound (settled low), share_of_settled sound (settled high), none,
      List.append_nil]
    split
    · rename_i same
      have size := inUse.size
      rw [if_pos same] at size
      have out : table.current.chainAt (old + resize.array.size) = .empty :=
        BucketArray.chainAt_of_size_le (by omega)
      rw [out, Chain.live_empty, List.append_nil]
    · exact .refl _
  · have waits := waiting.not_vacated
    rw [share_of_waiting sound growing (low.symm ▸ waits),
      share_of_waiting sound growing (high.symm ▸ waits), waiting.low, waiting.high, low, high,
      Chain.live_empty, List.nil_append]
    cases doubling : resize.sameSize with
    | true =>
      rw [if_pos rfl]
      refine .of_eq (List.filter_eq_self.mpr fun item _ => ?_)
      simp [destined, growing, doubling]
    | false =>
      rw [if_neg Bool.false_ne_true]
      have other : (resize.array.chainAt old).live.filter
            (fun item => table.destined reading (old + resize.array.size) item.1 item.2.key) =
          (resize.array.chainAt old).live.filter
            (fun item => !table.destined reading old item.1 item.2.key) :=
        List.filter_congr fun item mem =>
          destined_high sound growing doubling bound (waiting.sound.placed item mem)
      rw [other]
      exact List.filter_append_perm _ _

/-- Every entry belongs to exactly one index. -/
theorem Sound.share_perm (sound : table.Sound (reading.rules exact)) :
    ((List.range table.current.size).flatMap fun i =>
      (table.share reading i).map (·.2)).Perm table.entries := by
  cases growing : table.resize with
  | none =>
    rw [entries_of_idle growing, BucketArray.entries]
    refine .of_eq (congrArg List.flatten (List.map_congr_left fun i _ => ?_))
    rw [share_of_settled sound (settled_of_idle growing i)]
    rfl
  | some resize =>
    have size := (sound.resizing resize growing).size
    have split (old : Nat) (bound : old < resize.array.size) :=
      (share_split sound growing bound).map Prod.snd
    have whole : table.entries = table.current.entries ++ resize.array.entries := by
      simp [entries, former, growing]
    cases doubling : resize.sameSize with
    | true =>
      simp only [doubling, if_true] at size split
      rw [whole, BucketArray.entries, BucketArray.entries, size]
      refine .trans (.flatMap_left _ fun i mem => ?_) (List.flatMap_append_perm _ _ _).symm
      have out : table.current.chainAt (i + resize.array.size) = .empty :=
        BucketArray.chainAt_of_size_le (by omega)
      simpa [out, Chain.entries] using split i (List.mem_range.mp mem)
    | false =>
      simp only [doubling, Bool.false_eq_true, if_false] at size split
      rw [whole, BucketArray.entries, BucketArray.entries, size, Nat.two_mul, List.range_add,
        List.flatMap_append, List.flatMap_append, List.flatMap_map, List.flatMap_map]
      apply (List.flatMap_append_perm _ _ _).trans
      refine .trans (.flatMap_left _ fun i mem => ?_)
        (((List.flatMap_append_perm _ _ _).append_right _).trans
          (List.flatMap_append_perm _ _ _)).symm
      simpa [Chain.entries, Nat.add_comm] using split i (List.mem_range.mp mem)

/-- An entry that can be found again belongs to the index of its hash. -/
theorem Sound.index_of_share (sound : table.Sound (reading.rules exact))
    (bound : index < table.current.size) {item : UInt8 × Entry K V}
    (mem : item ∈ table.share reading index)
    (known : reading.same item.2.key item.2.key = true) :
    ∃ hash, reading.code item.2.key table.seed = .ok hash ∧
      bucketIndex hash table.exponent = index := by
  have allocated := sound.size_eq_of_lt bound
  obtain ⟨live, chosen⟩ := List.mem_filter.mp mem
  rcases sound.home_cases index with ⟨home, _⟩ | ⟨resize, growing, home, waiting⟩
  · rw [home] at live
    obtain ⟨hash, code, place, _⟩ := (sound.chains index bound).placed item live known
    exact ⟨hash, code, by rw [bucketIndex, ← allocated, place]⟩
  · rw [home, chainAt, growing] at live
    obtain ⟨hash, code, place, _⟩ := waiting.sound.placed item live known
    refine ⟨hash, code, ?_⟩
    simp only [wanted, only, home, if_true, destined, growing, known, code,
      Bool.or_eq_true, decide_eq_true_eq] at chosen
    rcases chosen with sameSize | same
    · have size := (sound.resizing resize growing).size
      rw [if_pos sameSize] at size
      rw [bucketIndex, ← allocated, size, place, Nat.mod_eq_of_lt (size ▸ bound)]
    · exact same

end Table

end GradualMap
