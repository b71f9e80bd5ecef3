import GradualMap.Proofs.Walk
import GradualMap.Traversal.Cursor
import Mathlib.Data.List.Nodup

/-!
What a cursor collects. The entries of one index of the old size sit, at any later size and amid any
resize, at the indices that are the same modulo the old size; so each entry is in one class, and the
class of a key stands as long as its hash does.
-/

namespace GradualMap

open GradualMap.Action

variable {K V δ : Type} {reading : Reading K} {exact : Prop} {scheme : KeyScheme K δ}
  {table : Table K V}

/-- The hash of a key is known under some seed, if a look-up of it can find it. -/
def Pending.Fits (reading : Reading K) : Pending K V → Prop
  | .key sought => reading.same sought sought = true ∧
      ∃ seed hash, reading.code sought seed = .ok hash
  | .copied stray _ => reading.Stray stray

namespace Cursor

variable {cursor : Cursor K V}

/-- What is queued for an entry. -/
def queued (reading : Reading K) (entry : Entry K V) : Pending K V :=
  if reading.same entry.key entry.key then .key entry.key else .copied entry.key entry.value

/-- The cursor after it queued some entries more. -/
def plus (reading : Reading K) (cursor : Cursor K V) (entries : List (Entry K V)) : Cursor K V :=
  { cursor with pending := cursor.pending ++ entries.map (queued reading) }

theorem plus_nil : cursor.plus reading [] = cursor := by
  simp [plus]

theorem plus_append {entries later : List (Entry K V)} :
    cursor.plus reading (entries ++ later) = (cursor.plus reading entries).plus reading later := by
  simp [plus]

/-- The entries of the indices that are `first` modulo the old size. -/
def gathered (reading : Reading K) (table : Table K V) (cursor : Cursor K V) (first : Nat) :
    List (Entry K V) :=
  (classOf first (bucketCount cursor.exponent) table.current.size).flatMap
    (Walk.visitOf reading table cursor.offset)

theorem mem_classOf {first step size index : Nat} (pos : 0 < step) :
    index ∈ classOf first step size ↔ index < size ∧ ∃ k, first + step * k = index := by
  have below (k : Nat) : k < (size - first + step - 1) / step ↔ first + step * k < size := by
    rw [Nat.lt_div_iff_mul_lt pos, Nat.mul_comm]
    omega
  unfold classOf
  rw [List.mem_map]
  constructor
  · rintro ⟨k, mem, rfl⟩
    exact ⟨(below k).mp (List.mem_range.mp mem), k, rfl⟩
  · rintro ⟨bound, k, rfl⟩
    exact ⟨k, List.mem_range.mpr ((below k).mpr bound), rfl⟩

/-- A class is all indices that are the same modulo the old size. -/
theorem mem_classOf_iff {first step size index : Nat} (small : first < step) :
    index ∈ classOf first step size ↔ index < size ∧ index % step = first := by
  rw [mem_classOf (Nat.zero_lt_of_lt small)]
  refine and_congr_right fun _ => ⟨?_, ?_⟩
  · rintro ⟨k, rfl⟩
    rw [Nat.add_mul_mod_self_left, Nat.mod_eq_of_lt small]
  · rintro rfl
    exact ⟨index / step, Nat.mod_add_div index step⟩

theorem nodup_classOf {first step size : Nat} (pos : 0 < step) :
    (classOf first step size).Nodup :=
  List.nodup_range.map fun _ _ same =>
    Nat.eq_of_mul_eq_mul_left pos (Nat.add_left_cancel same)

theorem collectSlots_yields (follows : scheme.Follows reading) (only : Option Nat)
    (row : List (Slot K V)) :
    ∀ {cursor : Cursor K V} {env : KeyEnv δ}, Walk.Hashed reading table.seed row →
      Yields (collectSlots scheme table only row) (cursor, env) fun _ s =>
        s.1 = cursor.plus reading (Walk.shows reading table only row) := by
  induction row with
  | nil =>
    intro cursor env _
    exact plus_nil.symm
  | cons slot rest ih =>
    intro cursor env hashed
    unfold collectSlots
    cases live : slot.live? with
    | none =>
      rw [Walk.shows_free live]
      exact ih hashed.tail
    | some item =>
      obtain ⟨top, entry⟩ := item
      rw [Walk.shows_live live, plus_append]
      have decided (wanted : Bool) (env : KeyEnv δ)
          (answer : wanted = table.wanted reading only (top, entry)) :
          Yields (if wanted then do
              let self ← second (scheme.selfEqual entry.key)
              modify fun cursor => { cursor with
                pending := cursor.pending ++
                  [if self then .key entry.key else .copied entry.key entry.value] }
              collectSlots scheme table only rest
            else collectSlots scheme table only rest) (cursor, env) fun _ s =>
              s.1 = (cursor.plus reading
                (if table.wanted reading only (top, entry) then [entry] else [])).plus reading
                  (Walk.shows reading table only rest) := by
        rw [← answer]
        cases wanted with
        | true =>
          simp only [if_true]
          rw [Yields, ends_bind, ends_second]
          apply (follows.reproduces.selfEqual_yields entry.key env).ends
          rintro self env rfl
          exact ih hashed.tail
        | false =>
          simp only [Bool.false_eq_true, if_false, plus_nil]
          exact ih hashed.tail
      cases only with
      | none => exact decided true env rfl
      | some index =>
        rw [Yields]
        simp only
        rw [ends_bind, ends_second]
        exact (Table.destinedFor_yields follows.reproduces (hashed.head live) top index env).ends
          fun wanted env answer => decided wanted env answer

theorem visitOf_eq_nil (sound : table.Sound (reading.rules exact)) (empty : table.entries = [])
    (offset index : Nat) : Walk.visitOf reading table offset index = [] := by
  apply List.eq_nil_iff_forall_not_mem.mpr
  intro entry mem
  obtain ⟨item, shared, _⟩ := List.mem_map.mp ((Walk.visitOf_perm offset index).mem_iff.mp mem)
  have known := sound.mem_of_home (List.mem_filter.mp shared).1
  rw [empty] at known
  cases known

/-- Each of some indices in turn, from the chain that has its entries now. -/
theorem collectEach_yields (follows : scheme.Follows reading)
    (sound : table.Sound (reading.rules exact)) (offset : Nat) (indices : List Nat) :
    ∀ {cursor : Cursor K V} {env : KeyEnv δ}, (∀ index ∈ indices, index < table.current.size) →
      Yields (indices.forM fun index => do
        let (era, source) ← .check (table.source index)
        let chain ← .check (table.chain era source)
        let only := if era = .former then some index else none
        collectSlots scheme table only (chain.rotated offset)) (cursor, env) fun _ s =>
          s.1 = cursor.plus reading (indices.flatMap (Walk.visitOf reading table offset)) := by
  induction indices with
  | nil =>
    intro cursor env _
    exact plus_nil.symm
  | cons index indices ih =>
    intro cursor env bounds
    rw [List.forM_eq_forM, List.forM_cons, ← List.forM_eq_forM, Yields, ends_bind, ends_bind,
      ends_check_ok (sound.source_eq index)]
    simp only
    rw [ends_bind, ends_check_ok (sound.chain_home (bounds index (.head _)))]
    apply (collectSlots_yields follows _ _ (Walk.hashed_home sound index offset)).ends
    rintro _ ⟨between, env⟩ rfl
    rw [List.flatMap_cons, plus_append]
    exact ih fun index mem => bounds index (.tail _ mem)

/-- The entries of an index are queued, from wherever they are now. -/
theorem collect_yields (follows : scheme.Follows reading)
    (sound : table.Sound (reading.rules exact)) (first : Nat) (env : KeyEnv δ) :
    Yields (collect scheme table first) (cursor, env) fun _ s =>
      s.1 = cursor.plus reading (gathered reading table cursor first) := by
  unfold collect
  split
  · rename_i empty
    have none := sound.entries_eq_nil.mp empty
    have nothing : gathered reading table cursor first = [] := by
      rw [gathered, List.flatMap_eq_nil_iff]
      exact fun index _ => visitOf_eq_nil sound none _ index
    rw [nothing, plus_nil]
    exact rfl
  · exact collectEach_yields follows sound cursor.offset _ fun index mem =>
      ((mem_classOf (bucketCount_pos _)).mp mem).1

/-- No entry is gathered twice. -/
theorem gathered_perm (sound : table.Sound (reading.rules exact)) (cursor : Cursor K V)
    (first : Nat) : ∃ rest, (gathered reading table cursor first ++ rest).Perm table.entries := by
  have pos := bucketCount_pos cursor.exponent
  have inUse : classOf first (bucketCount cursor.exponent) table.current.size ⊆
      List.range table.current.size :=
    fun index mem => List.mem_range.mpr ((mem_classOf pos).mp mem).1
  obtain ⟨inClass, same, sublist⟩ := List.subperm_of_subset (nodup_classOf pos) inUse
  obtain ⟨others, split⟩ := sublist.exists_perm_append
  refine ⟨others.flatMap (Walk.visitOf reading table cursor.offset), ?_⟩
  rw [gathered, ← List.flatMap_append]
  refine (((same.append_right others).symm.trans split.symm).flatMap_right _).trans
    (.trans ?_ sound.share_perm)
  exact .flatMap_left _ fun index _ => Walk.visitOf_perm cursor.offset index

theorem code_of_mem (sound : table.Sound (reading.rules exact)) {entry : Entry K V}
    (mem : entry ∈ table.entries) (known : reading.same entry.key entry.key = true) :
    ∃ hash, reading.code entry.key table.seed = .ok hash := by
  obtain ⟨index, inUse, visited⟩ := List.mem_flatMap.mp (sound.share_perm.mem_iff.mpr mem)
  obtain ⟨item, shared, rfl⟩ := List.mem_map.mp visited
  obtain ⟨hash, code, _⟩ := sound.index_of_share (List.mem_range.mp inUse) shared known
  exact ⟨hash, code⟩

/-- The entries gathered are those of one class, as long as the table is no smaller than it was. -/
theorem mem_gathered (sound : table.Sound (reading.rules exact))
    (grown : cursor.exponent ≤ table.exponent) {first : Nat}
    (small : first < bucketCount cursor.exponent) {entry : Entry K V} {hash : UInt64}
    (known : reading.same entry.key entry.key = true)
    (code : reading.code entry.key table.seed = .ok hash) :
    entry ∈ gathered reading table cursor first ↔
      entry ∈ table.entries ∧ bucketIndex hash cursor.exponent = first := by
  have folds (index : Nat) (place : bucketIndex hash table.exponent = index) :
      index % bucketCount cursor.exponent = bucketIndex hash cursor.exponent := by
    rw [← place]
    exact Nat.mod_mod_of_dvd _ (Nat.pow_dvd_pow 2 grown)
  have placed {index : Nat} (bound : index < table.current.size)
      (mem : entry ∈ (table.share reading index).map (·.2)) :
      bucketIndex hash table.exponent = index := by
    obtain ⟨item, shared, rfl⟩ := List.mem_map.mp mem
    obtain ⟨hash', code', place⟩ := sound.index_of_share bound shared known
    obtain rfl := Except.ok.inj (code.symm.trans code')
    exact place
  unfold gathered
  rw [List.mem_flatMap, ← sound.share_perm.mem_iff, List.mem_flatMap]
  constructor
  · rintro ⟨index, inClass, mem⟩
    obtain ⟨bound, rfl⟩ := (mem_classOf_iff small).mp inClass
    have shared := (Walk.visitOf_perm cursor.offset index).mem_iff.mp mem
    exact ⟨⟨index, List.mem_range.mpr bound, shared⟩, (folds index (placed bound shared)).symm⟩
  · rintro ⟨⟨index, inUse, shared⟩, rfl⟩
    have bound := List.mem_range.mp inUse
    exact ⟨index, (mem_classOf_iff small).mpr ⟨bound, folds index (placed bound shared)⟩,
      (Walk.visitOf_perm cursor.offset index).mem_iff.mpr shared⟩

end Cursor

end GradualMap
