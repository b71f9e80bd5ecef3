import GradualMap.Proofs.Probe
import GradualMap.Proofs.Share
import GradualMap.Traversal.Walk

/-!
The reading walk. What it will show is decided by the table and where it started, whatever the key
scheme does meanwhile: the rest of the chain at hand, and then the share of each index to come.
-/

namespace GradualMap

open GradualMap.Action

namespace Walk

variable {K V δ : Type} {reading : Reading K} {exact : Prop} {scheme : KeyScheme K δ}
  {table : Table K V} {walk : Walk K V}

/-- What a row shows to a walk at one index. -/
def shows (reading : Reading K) (table : Table K V) (only : Option Nat) (row : List (Slot K V)) :
    List (Entry K V) :=
  ((Row.live row).filter (table.wanted reading only)).map (·.2)

/-- The entries of one index in the order of the visit. -/
def visitOf (reading : Reading K) (table : Table K V) (offset index : Nat) : List (Entry K V) :=
  shows reading table (table.only index) ((table.chainAt (table.home index)).rotated offset)

/-- The indices to come, wrapping around. -/
def coming (size first left : Nat) : List Nat :=
  (List.range left).map fun k => (first + k) % size

/-- The key of every live slot hashes, if it can be found again. -/
def Hashed (reading : Reading K) (seed : UInt64) (row : List (Slot K V)) : Prop :=
  ∀ item ∈ Row.live row, reading.same item.2.key item.2.key = true →
    ∃ hash, reading.code item.2.key seed = .ok hash

/-- A walk that will show `items`, in that order. -/
def Ahead (reading : Reading K) (table : Table K V) (walk : Walk K V) (items : List (Entry K V)) :
    Prop :=
  walk.finished = true ∧ items = [] ∨
    walk.finished = false ∧ walk.remaining = items.length ∧
      walk.nextIndex < bucketCount table.exponent ∧ Hashed reading table.seed walk.pending ∧
      items = shows reading table walk.only walk.pending ++
        (coming (bucketCount table.exponent) walk.nextIndex walk.indicesLeft).flatMap
          (visitOf reading table walk.offset)

theorem visitOf_perm (offset index : Nat) :
    (visitOf reading table offset index).Perm ((table.share reading index).map (·.2)) :=
  (((Chain.rotated_perm _ offset).filterMap _).filter _).map _

theorem Ahead.len {items : List (Entry K V)} (ahead : Ahead reading table walk items) :
    walk.len = items.length := by
  unfold Walk.len
  rcases ahead with ⟨finished, rfl⟩ | ⟨running, remaining, _⟩
  · rw [finished]
    rfl
  · rw [running, remaining]
    rfl

theorem hashed_home (sound : table.Sound (reading.rules exact)) (index offset : Nat) :
    Hashed reading table.seed ((table.chainAt (table.home index)).rotated offset) := by
  intro item mem known
  replace mem := ((Chain.rotated_perm _ offset).filterMap _).mem_iff.mp mem
  obtain ⟨size, i, admits⟩ := sound.placed_home mem
  obtain ⟨hash, code, _⟩ := admits known
  exact ⟨hash, code⟩

/-- The first of `items` picked from a row, and a rest of the row that shows the others. -/
def Picks (reading : Reading K) (table : Table K V) (only : Option Nat) (items : List (Entry K V)) :
    Option (Entry K V × List (Slot K V)) → Prop
  | none => items = []
  | some (entry, rest) => Hashed reading table.seed rest ∧
      items = entry :: shows reading table only rest

theorem shows_free {only : Option Nat} {slot : Slot K V} {rest : List (Slot K V)}
    (free : slot.live? = none) :
    shows reading table only (slot :: rest) = shows reading table only rest := by
  rw [shows, Row.live_cons, free]
  rfl

theorem shows_live {only : Option Nat} {slot : Slot K V} {rest : List (Slot K V)} {top : UInt8}
    {entry : Entry K V} (live : slot.live? = some (top, entry)) :
    shows reading table only (slot :: rest) =
      (if table.wanted reading only (top, entry) then [entry] else []) ++
        shows reading table only rest := by
  rw [shows, Row.live_cons, live]
  simp only [Option.toList_some, List.singleton_append, List.filter_cons]
  split <;> rfl

theorem Hashed.tail {slot : Slot K V} {rest : List (Slot K V)}
    (hashed : Hashed reading table.seed (slot :: rest)) : Hashed reading table.seed rest := by
  intro item mem
  exact hashed item (by rw [Row.live_cons]; exact List.mem_append_right _ mem)

theorem Hashed.head {slot : Slot K V} {rest : List (Slot K V)} {item : UInt8 × Entry K V}
    (hashed : Hashed reading table.seed (slot :: rest)) (live : slot.live? = some item) :
    reading.same item.2.key item.2.key = true →
      ∃ hash, reading.code item.2.key table.seed = .ok hash :=
  hashed item (by rw [Row.live_cons, live]; exact .head _)

theorem firstWanted_yields (follows : scheme.Follows reading) (only : Option Nat)
    (row : List (Slot K V)) (hashed : Hashed reading table.seed row) (env : KeyEnv δ) :
    Yields (firstWanted scheme table only row) env fun answer _ =>
      Picks reading table only (shows reading table only row) answer := by
  induction row generalizing env with
  | nil => exact rfl
  | cons slot rest ih =>
    unfold firstWanted
    cases live : slot.live? with
    | none =>
      rw [shows_free live]
      exact ih hashed.tail env
    | some item =>
      obtain ⟨top, entry⟩ := item
      have decided (wanted : Bool) (env : KeyEnv δ)
          (answer : wanted = table.wanted reading only (top, entry)) :
          Yields (if wanted then return some (entry, rest)
            else firstWanted scheme table only rest) env fun answer _ =>
              Picks reading table only (shows reading table only (slot :: rest)) answer := by
        rw [shows_live live, ← answer]
        cases wanted with
        | true => exact ⟨hashed.tail, rfl⟩
        | false => exact ih hashed.tail env
      cases only with
      | none => exact decided true env rfl
      | some index =>
        rw [Yields]
        simp only
        rw [ends_bind]
        exact (Table.destinedFor_yields follows.reproduces (hashed.head live) top index env).ends
          fun wanted env answer => decided wanted env answer

/-- What one call of a walk comes to. -/
def Shown (reading : Reading K) (table : Table K V) (items : List (Entry K V))
    (answer : Option (K × V) × Walk K V) : Prop :=
  answer.1 = items.head?.map (fun entry => (entry.key, entry.value)) ∧
    Ahead reading table answer.2 items.tail

theorem resume_yields (follows : scheme.Follows reading) {items later : List (Entry K V)}
    (running : walk.finished = false) (remaining : walk.remaining = items.length)
    (bound : walk.nextIndex < bucketCount table.exponent)
    (hashed : Hashed reading table.seed walk.pending)
    (rest : (coming (bucketCount table.exponent) walk.nextIndex walk.indicesLeft).flatMap
      (visitOf reading table walk.offset) = later)
    (split : items = shows reading table walk.only walk.pending ++ later) (env : KeyEnv δ) :
    Yields (resume scheme table walk) env fun answer _ =>
      (answer = (none, { walk with pending := [] }) ∧ items = later) ∨
        answer.1 ≠ none ∧ Shown reading table items answer := by
  unfold resume Yields
  rw [ends_bind]
  apply (firstWanted_yields follows walk.only walk.pending hashed env).ends
  rintro (_ | ⟨entry, pending⟩) env picked
  · rw [show shows reading table walk.only walk.pending = [] from picked] at split
    exact .inl ⟨rfl, split⟩
  · obtain ⟨hashed', shown⟩ := picked
    rw [shown] at split
    refine .inr ⟨by simp, by rw [split]; rfl, .inr ⟨running, ?_, bound, hashed', ?_⟩⟩
    · simp [remaining, split]
    · rw [split, rest]
      rfl

theorem coming_succ {size first left : Nat} (bound : first < size) :
    coming size first (left + 1) = first :: coming size ((first + 1) % size) left := by
  unfold coming
  rw [List.range_succ_eq_map, List.map_cons, List.map_map, Nat.add_zero, Nat.mod_eq_of_lt bound]
  refine congrArg _ (List.map_congr_left fun k _ => ?_)
  rw [Function.comp_apply, Nat.mod_add_mod]
  congr 1
  omega

/-- The next index is turned to, and nothing of what is ahead is lost. -/
theorem visit_spec (sound : table.Sound (reading.rules exact))
    (size : table.current.size = bucketCount table.exponent) {left : Nat}
    (bound : walk.nextIndex < bucketCount table.exponent) (more : walk.indicesLeft = left + 1) :
    ∃ next, walk.visit table = .ok next ∧ next.finished = walk.finished ∧
      next.remaining = walk.remaining ∧ next.offset = walk.offset ∧ next.indicesLeft = left ∧
      next.nextIndex < bucketCount table.exponent ∧ Hashed reading table.seed next.pending ∧
      (coming (bucketCount table.exponent) walk.nextIndex walk.indicesLeft).flatMap
          (visitOf reading table walk.offset) =
        shows reading table next.only next.pending ++
          (coming (bucketCount table.exponent) next.nextIndex left).flatMap
            (visitOf reading table walk.offset) := by
  have fetched := sound.chain_home (size ▸ bound : walk.nextIndex < table.current.size)
  refine ⟨{ walk with
    nextIndex := (walk.nextIndex + 1) % bucketCount table.exponent
    indicesLeft := walk.indicesLeft - 1
    pending := (table.chainAt (table.home walk.nextIndex)).rotated walk.offset
    only := table.only walk.nextIndex }, ?_, rfl, rfl, rfl, by simp [more],
    Nat.mod_lt _ (bucketCount_pos _), hashed_home sound _ _, ?_⟩
  · unfold visit
    rw [sound.source_eq]
    change (table.chain (table.home walk.nextIndex).1 (table.home walk.nextIndex).2 >>= _) = _
    rw [fetched]
    rfl
  · rw [more, coming_succ bound, List.flatMap_cons]
    rfl

theorem advance_yields (follows : scheme.Follows reading)
    (sound : table.Sound (reading.rules exact)) (left : Nat) :
    ∀ {walk : Walk K V} {items : List (Entry K V)} {env : KeyEnv δ}, walk.indicesLeft = left →
      walk.finished = false → walk.remaining = items.length →
      walk.nextIndex < bucketCount table.exponent → items ≠ [] →
      table.current.size = bucketCount table.exponent →
      items = (coming (bucketCount table.exponent) walk.nextIndex left).flatMap
        (visitOf reading table walk.offset) →
      Yields (advance scheme table left walk) env fun answer _ =>
        Shown reading table items answer := by
  induction left with
  | zero =>
    intro walk items env _ _ _ _ more _ split
    exact absurd split more
  | succ left ih =>
    intro walk items env indices running remaining bound more size split
    obtain ⟨next, visited, running', remaining', offset, indices', bound', hashed, coming⟩ :=
      visit_spec sound size bound indices
    rw [indices] at coming
    unfold advance Yields
    rw [ends_bind, ends_check_ok visited, ends_bind]
    refine (resume_yields follows (running'.trans running) (remaining'.trans remaining) bound'
      hashed rfl ?_ env).ends ?_
    · rw [split, coming, indices', offset]
    · rintro ⟨pair, walk'⟩ env (⟨eq, rest⟩ | ⟨found, shown⟩)
      · cases eq
        refine ih indices' (running'.trans running) (remaining'.trans remaining) bound' more size ?_
        rw [indices'] at rest
        exact rest
      · cases pair with
        | none => exact absurd rfl found
        | some pair => exact shown

theorem next_yields (follows : scheme.Follows reading) {map : Map K V}
    (sound : map.table.Sound (reading.rules exact)) (free : map.latch.held = false)
    {items : List (Entry K V)} (known : ∀ entry ∈ items, entry ∈ map.table.entries)
    (ahead : Ahead reading map.table walk items) (env : KeyEnv δ) :
    Yields (next scheme map walk) env fun answer _ => Shown reading map.table items answer := by
  unfold next Yields
  rcases ahead with ⟨finished, rfl⟩ | ⟨running, remaining, bound, hashed, split⟩
  · rw [finished, Bool.true_or, if_pos rfl]
    exact ⟨rfl, .inl ⟨rfl, rfl⟩⟩
  · cases items with
    | nil =>
      rw [remaining]
      simp only [List.length_nil, decide_true, Bool.or_true, if_true]
      exact ⟨rfl, .inl ⟨rfl, rfl⟩⟩
    | cons entry items =>
      have size : map.table.current.size = bucketCount map.table.exponent := by
        refine sound.size_eq (sound.allocated_of_filled fun empty => ?_)
        have mem := known entry (.head _)
        rw [sound.entries_eq_nil.mp empty] at mem
        cases mem
      have stands : map.latch.check .iterationDuringWrite = .ok () := by
        simp [Latch.check, free]
      rw [running, remaining]
      simp only [List.length_cons, Nat.succ_ne_zero, decide_false, Bool.or_false,
        Bool.false_eq_true, if_false]
      rw [ends_bind, ends_check_ok stands, ends_bind]
      apply (resume_yields follows running remaining bound hashed rfl split env).ends
      rintro ⟨pair, walk'⟩ env (⟨eq, rest⟩ | ⟨found, shown⟩)
      · cases eq
        exact advance_yields follows sound _ rfl running remaining bound (by simp) size rest
      · cases pair with
        | none => exact absurd rfl found
        | some pair => exact shown

/-- The indices to come of a fresh walk are all indices. -/
theorem coming_perm {size first : Nat} (bound : first < size) :
    (coming size first size).Perm (List.range size) := by
  obtain ⟨rest, split⟩ := Nat.le.dest (Nat.le_of_lt bound)
  have low : (List.range rest).map (fun k => (first + k) % size) =
      (List.range rest).map (first + ·) :=
    List.map_congr_left fun k mem => Nat.mod_eq_of_lt (by
      have := List.mem_range.mp mem
      omega)
  have high : (List.range first).map (fun k => (first + (rest + k)) % size) =
      List.range first := by
    refine (List.map_congr_left fun k mem => ?_).trans (List.map_id _)
    have := List.mem_range.mp mem
    rw [← Nat.add_assoc, split, Nat.add_mod_left, Nat.mod_eq_of_lt (by omega), id]
  have whole : coming size first size = (List.range rest).map (first + ·) ++ List.range first := by
    rw [coming, show List.range size = List.range (rest + first) by rw [← split, Nat.add_comm],
      List.range_add, List.map_append, List.map_map, low]
    exact congrArg _ high
  rw [whole, ← split, List.range_add]
  exact List.perm_append_comm

/-- All that a walk shows, whatever index it starts at. -/
theorem whole_perm (sound : table.Sound (reading.rules exact)) {first : Nat}
    (bound : first < bucketCount table.exponent) (offset : Nat) :
    ((coming (bucketCount table.exponent) first (bucketCount table.exponent)).flatMap
      (visitOf reading table offset)).Perm table.entries := by
  apply ((coming_perm bound).flatMap_right _).trans
  apply (List.Perm.flatMap_left _ fun index _ => visitOf_perm offset index).trans
  rcases sound.allocated with ⟨small, _, idle⟩ | ⟨size, _⟩
  · have none (index : Nat) : (table.share reading index).map (·.2) = [] := by
      rw [Table.share_of_settled sound (Table.settled_of_idle idle index),
        BucketArray.chainAt_of_size_le (by omega), Chain.live_empty]
      rfl
    rw [Table.entries_of_idle idle,
    BucketArray.entries_eq_nil fun i bound => absurd bound (by omega)]
    simp [none]
  · rw [← size]
    exact sound.share_perm

/-- A fresh walk has every entry before it. -/
theorem ofMap_yields {map : Map K V} (sound : map.table.Sound (reading.rules exact))
    (env : KeyEnv δ) :
    Yields (ofMap map) env fun walk _ => ∃ items, items.Perm map.table.entries ∧
      Ahead reading map.table walk items := by
  unfold ofMap Start.draw Yields
  rw [ends_bind, ends_bind]
  apply (KeyEnv.draw_yields env).ends
  intro word env _
  let start := Start.ofWord map.table.exponent word
  have bound : start.index < bucketCount map.table.exponent := Nat.mod_lt _ (bucketCount_pos _)
  refine ⟨_, whole_perm sound bound start.offset, .inr ⟨rfl, ?_, bound, by simp [Hashed], rfl⟩⟩
  rw [(whole_perm sound bound start.offset).length_eq]
  exact sound.count

theorem take_yields (follows : scheme.Follows reading) {map : Map K V}
    (sound : map.table.Sound (reading.rules exact)) (free : map.latch.held = false) (limit : Nat) :
    ∀ {walk : Walk K V} {items : List (Entry K V)} {env : KeyEnv δ},
      (∀ entry ∈ items, entry ∈ map.table.entries) → Ahead reading map.table walk items →
      Yields (take scheme map limit walk) env fun answer _ =>
        answer.1 = (items.take limit).map fun entry => (entry.key, entry.value) := by
  induction limit with
  | zero =>
    intro walk items env _ _
    rw [List.take_zero]
    exact rfl
  | succ limit ih =>
    intro walk items env known ahead
    unfold take Yields
    rw [ends_bind]
    apply (next_yields follows sound free known ahead env).ends
    rintro ⟨pair, walk'⟩ env ⟨shown, ahead'⟩
    cases items with
    | nil =>
      obtain rfl : pair = none := shown
      exact rfl
    | cons entry items =>
      obtain rfl : pair = some (entry.key, entry.value) := shown
      simp only
      rw [ends_bind]
      refine (ih (fun entry mem => known entry (.tail _ mem)) ahead').ends ?_
      rintro ⟨pairs, last⟩ env rfl
      exact rfl

end Walk

theorem Map.toList_yields {K V δ : Type} {reading : Reading K} {exact : Prop}
    {scheme : KeyScheme K δ} {map : Map K V} (follows : scheme.Follows reading)
    (sound : map.table.Sound (reading.rules exact)) (free : map.latch.held = false)
    (env : KeyEnv δ) :
    Yields (map.toList scheme) env fun pairs _ => ∃ order : List (Entry K V),
      order.Perm map.table.entries ∧ pairs = order.map fun entry => (entry.key, entry.value) := by
  unfold toList Yields
  rw [ends_bind]
  apply (Walk.ofMap_yields sound env).ends
  rintro walk env ⟨order, all, ahead⟩
  have enough : order.length ≤ walk.remaining + 1 := by
    rcases ahead with ⟨_, rfl⟩ | ⟨_, remaining, _⟩
    · exact Nat.zero_le _
    · exact remaining ▸ Nat.le_succ _
  rw [ends_bind]
  apply (Walk.take_yields follows sound free _ (fun entry => all.mem_iff.mp) ahead).ends
  rintro ⟨pairs, last⟩ env rfl
  exact ⟨order, all, by rw [List.take_of_length_le enough]⟩

end GradualMap
