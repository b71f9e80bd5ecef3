import GradualMap.Proofs.Dictionary
import GradualMap.Proofs.Gather

/-!
The steps of a cursor. While the seed stands, the keys it has shown and those it has queued are all
different, each of a class it has passed, and no key that stays in the table is missing among them.
-/

namespace GradualMap

open GradualMap.Action

variable {K V δ : Type} {reading : Reading K} {exact : Prop} {scheme : KeyScheme K δ}
  {table : Table K V} {key other : K} {keys shown : List K} {stays : K → Prop} {seed : UInt64}

/-- Whether a key is refused does not depend on the seed. -/
def Reading.Steadfast (reading : Reading K) : Prop :=
  ∀ key seed seed', reading.same key key = true → (∃ hash, reading.code key seed = .ok hash) →
    ∃ hash, reading.code key seed' = .ok hash

/-- A key that a cursor has queued is found as long as it is there, unless it is refused under a
later seed. -/
theorem Table.findStored_ends (follows : scheme.Follows reading)
    (sound : table.Sound (reading.rules exact))
    (fits : (Pending.key key : Pending K V).Fits reading) (env : KeyEnv δ) :
    Ends (table.findStored scheme key) env
      (fun found _ => match found with
        | none => reading.Coherent → ∀ entry ∈ table.entries, reading.same key entry.key = false
        | some entry => entry ∈ table.entries ∧ reading.same key entry.key = true)
      (fun _ _ => ¬ reading.Steadfast) := by
  obtain ⟨known, hashed⟩ := fits
  unfold findStored
  split
  · rename_i empty
    rw [ends_pure, sound.entries_eq_nil.mp empty]
    simp
  · unfold KeyScheme.rehash
    rw [ends_bind, ends_bind]
    apply (KeyM.yields_toAction (follows.hash key table.seed env known)).ends
    rintro _ env rfl
    cases code : reading.code key table.seed with
    | error refusal =>
      intro steadfast
      obtain ⟨seed, hashed⟩ := hashed
      obtain ⟨hash, code'⟩ := steadfast key seed table.seed known hashed
      rw [code] at code'
      cases code'
    | ok hash =>
      simp only
      rw [ends_pure, ends_bind]
      refine (find_ends sound env).mono ?_ fun failure _ balks => absurd balks follows.not_balks
      rintro (_ | pos) env located
      · exact fun coherent => sound.absent coherent follows.agrees (fun _ => code) located
      · obtain ⟨entry, holds, judges⟩ := located
        simp only
        rw [ends_bind, ends_check_ok holds.entryAt]
        exact ⟨sound.mem_of_holds holds, (follows.judges_iff judges).symm⟩

namespace Cursor

variable {cursor : Cursor K V}

theorem ends_read {env : KeyEnv δ} {answered : Cursor K V → Cursor K V × KeyEnv δ → Prop}
    {failed : Failure → Cursor K V × KeyEnv δ → Prop} :
    Ends read (cursor, env) answered failed ↔ answered cursor (cursor, env) :=
  Iff.rfl

theorem ends_modify {f : Cursor K V → Cursor K V} {env : KeyEnv δ}
    {answered : Unit → Cursor K V × KeyEnv δ → Prop}
    {failed : Failure → Cursor K V × KeyEnv δ → Prop} :
    Ends (modify f) (cursor, env) answered failed ↔ answered () (f cursor, env) :=
  Iff.rfl

/-- The indices of the old size that are still to be collected. -/
def ahead (cursor : Cursor K V) : List Nat :=
  Walk.coming (bucketCount cursor.exponent) cursor.nextIndex cursor.indicesLeft

/-- The class of the key was collected. -/
def Passed (reading : Reading K) (seed : UInt64) (cursor : Cursor K V) (key : K) : Prop :=
  ∃ hash, reading.code key seed = .ok hash ∧ bucketIndex hash cursor.exponent ∉ cursor.ahead

/-- The keys that are queued to be looked up. -/
def waiting (items : List (Pending K V)) : List K :=
  items.filterMap fun
    | .key sought => some sought
    | .copied _ _ => none

/-- `keys` were shown or are queued, and `stays` says of a key that it has been in the table at all
times so far. -/
structure Tracks (reading : Reading K) (seed : UInt64) (cursor : Cursor K V) (keys : List K)
    (stays : K → Prop) : Prop where
  apart : keys.Pairwise fun a b => reading.same a b = false
  passed : ∀ key ∈ keys, reading.same key key = true ∧ cursor.Passed reading seed key
  covered : ∀ key, stays key → cursor.Passed reading seed key →
    ∃ other ∈ keys, reading.same key other = true

theorem Tracks.perm (coherent : reading.Coherent) {keys' : List K}
    (tracks : Tracks reading seed cursor keys stays) (all : keys.Perm keys') :
    Tracks reading seed cursor keys' stays where
  apart := by
    refine (all.pairwise_iff fun {a b} differ => ?_).mp tracks.apart
    rw [Bool.eq_false_iff] at *
    exact fun same => differ (coherent.symm _ _ same)
  passed key mem := tracks.passed key (all.mem_iff.mpr mem)
  covered key stay passed := by
    obtain ⟨other, mem, same⟩ := tracks.covered key stay passed
    exact ⟨other, all.mem_iff.mp mem, same⟩

theorem Tracks.weaken {stays' : K → Prop} (tracks : Tracks reading seed cursor keys stays)
    (fewer : ∀ key, stays' key → stays key) : Tracks reading seed cursor keys stays' :=
  ⟨tracks.apart, tracks.passed, fun key stay => tracks.covered key (fewer key stay)⟩

/-- A key that is gone does not stay. -/
theorem Tracks.skip (coherent : reading.Coherent)
    (present : ∀ key, stays key → ∃ entry ∈ table.entries, reading.same key entry.key = true)
    (absent : ∀ entry ∈ table.entries, reading.same key entry.key = false)
    (tracks : Tracks reading seed cursor (key :: keys) stays) :
    Tracks reading seed cursor keys stays where
  apart := (List.pairwise_cons.mp tracks.apart).2
  passed other mem := tracks.passed other (.tail _ mem)
  covered other stay passed := by
    obtain ⟨found, mem, same⟩ := tracks.covered other stay passed
    rcases List.mem_cons.mp mem with rfl | mem
    · obtain ⟨entry, stored, same'⟩ := present other stay
      have missing := absent entry stored
      rw [coherent.trans _ _ _ (coherent.symm _ _ same) same'] at missing
      cases missing
    · exact ⟨found, mem, same⟩

/-- A key is shown as it is stored, which may be another key that is the same. -/
theorem Tracks.rename (coherent : reading.Coherent) (same : reading.same key other = true)
    (tracks : Tracks reading seed cursor (key :: keys) stays) :
    Tracks reading seed cursor (other :: keys) stays where
  apart := by
    obtain ⟨apart, rest⟩ := List.pairwise_cons.mp tracks.apart
    refine List.pairwise_cons.mpr ⟨fun third mem => ?_, rest⟩
    have differ := apart third mem
    rw [Bool.eq_false_iff] at *
    exact fun same' => differ (coherent.trans _ _ _ same same')
  passed third mem := by
    rcases List.mem_cons.mp mem with rfl | mem
    · obtain ⟨_, hash, code, passed⟩ := tracks.passed key (.head _)
      exact ⟨(coherent.straysApart _ _ same).2, hash, coherent.alike _ _ seed same ▸ code, passed⟩
    · exact tracks.passed third (.tail _ mem)
  covered third stay passed := by
    obtain ⟨found, mem, same'⟩ := tracks.covered third stay passed
    rcases List.mem_cons.mp mem with rfl | mem
    · exact ⟨other, .head _, coherent.trans _ _ _ same' same⟩
    · exact ⟨found, .tail _ mem, same'⟩

/-- Where a cursor may be over a table. -/
structure Stands (reading : Reading K) (table : Table K V) (cursor : Cursor K V) : Prop where
  grown : cursor.exponent ≤ table.exponent
  bound : cursor.nextIndex < bucketCount cursor.exponent
  nodup : cursor.ahead.Nodup
  fits : ∀ item ∈ cursor.pending, item.Fits reading

/-- The cursor once it has turned to its next index. -/
def turned (cursor : Cursor K V) (left : Nat) : Cursor K V :=
  { cursor with
    nextIndex := (cursor.nextIndex + 1) % bucketCount cursor.exponent
    indicesLeft := left }

theorem ahead_turned {left : Nat} (bound : cursor.nextIndex < bucketCount cursor.exponent)
    (more : cursor.indicesLeft = left + 1) :
    cursor.ahead = cursor.nextIndex :: (cursor.turned left).ahead := by
  rw [ahead, more]
  exact Walk.coming_succ bound

theorem waiting_queued (entries : List (Entry K V)) :
    waiting (entries.map (queued reading)) =
      (entries.filter (·.isKnown reading)).map (·.key) := by
  induction entries with
  | nil => rfl
  | cons entry entries ih =>
    rw [List.map_cons, List.filter_cons]
    unfold queued Entry.isKnown
    by_cases known : reading.same entry.key entry.key = true
    · rw [if_pos known, if_pos known]
      exact congrArg (entry.key :: ·) ih
    · rw [if_neg known, if_neg known]
      exact ih

/-- A new class is none of those passed, and now it is passed with all its keys. -/
theorem Tracks.collected (coherent : reading.Coherent) (sound : table.Sound (reading.rules exact))
    (distinct : Distinct reading table.entries)
    (present : ∀ key, stays key → ∃ entry ∈ table.entries, reading.same key entry.key = true)
    (stands : Stands reading table cursor) {left : Nat} (more : cursor.indicesLeft = left + 1)
    (tracks : Tracks reading table.seed cursor keys stays) :
    Tracks reading table.seed (cursor.turned left)
      (keys ++ waiting ((gathered reading table cursor cursor.nextIndex).map (queued reading)))
      stays := by
  have ahead := ahead_turned stands.bound more
  have fresh := List.nodup_cons.mp (ahead ▸ stands.nodup)
  obtain ⟨rest, all⟩ := gathered_perm sound cursor cursor.nextIndex
  have gathered_apart := (List.pairwise_append.mp (distinct.perm coherent all.symm)).1
  have later {key : K} (passed : Passed reading table.seed cursor key) :
      Passed reading table.seed (cursor.turned left) key := by
    obtain ⟨hash, code, passed⟩ := passed
    exact ⟨hash, code, fun mem => passed (ahead ▸ .tail _ mem)⟩
  have new {key : K} (mem : key ∈ waiting ((gathered reading table cursor cursor.nextIndex).map
      (queued reading))) : reading.same key key = true ∧ ∃ hash,
        reading.code key table.seed = .ok hash ∧
          bucketIndex hash cursor.exponent = cursor.nextIndex := by
    rw [waiting_queued] at mem
    obtain ⟨entry, chosen, rfl⟩ := List.mem_map.mp mem
    obtain ⟨mem, known⟩ := List.mem_filter.mp chosen
    obtain ⟨hash, code⟩ := code_of_mem sound (all.mem_iff.mp (List.mem_append_left _ mem)) known
    exact ⟨known, hash, code, ((mem_gathered sound stands.grown stands.bound known code).mp mem).2⟩
  refine ⟨List.pairwise_append.mpr ⟨tracks.apart, ?_, ?_⟩, ?_, ?_⟩
  · rw [waiting_queued]
    exact List.pairwise_map.mpr (gathered_apart.sublist (List.filter_sublist ..))
  · intro key old key' mem
    rw [Bool.eq_false_iff]
    intro same
    obtain ⟨_, hash, code, passed⟩ := tracks.passed key old
    obtain ⟨_, hash', code', place⟩ := new mem
    rw [coherent.alike _ _ table.seed same, code'] at code
    obtain rfl := Except.ok.inj code
    exact passed (place ▸ ahead ▸ .head _)
  · intro key mem
    rcases List.mem_append.mp mem with old | mem
    · exact ⟨(tracks.passed key old).1, later (tracks.passed key old).2⟩
    · obtain ⟨known, hash, code, place⟩ := new mem
      exact ⟨known, hash, code, fun mem => fresh.1 (place ▸ mem)⟩
  · rintro key stay ⟨hash, code, passed⟩
    by_cases here : bucketIndex hash cursor.exponent = cursor.nextIndex
    · obtain ⟨entry, stored, same⟩ := present key stay
      have known := (coherent.straysApart _ _ same).2
      have found := (mem_gathered sound stands.grown stands.bound known
        (coherent.alike _ _ table.seed same ▸ code)).mpr ⟨stored, here⟩
      refine ⟨entry.key, List.mem_append_right _ ?_, same⟩
      rw [waiting_queued]
      exact List.mem_map_of_mem (List.mem_filter.mpr ⟨found, known⟩)
    · obtain ⟨found, mem, same⟩ := tracks.covered key stay ⟨hash, code, fun mem => by
        rw [ahead] at mem
        exact (List.mem_cons.mp mem).elim here passed⟩
      exact ⟨found, List.mem_append_left _ mem, same⟩

/-- The key that an answer shows, if a look-up can find it. -/
def shownBy (reading : Reading K) : Option (K × V) → List K
  | none => []
  | some pair => if reading.same pair.1 pair.1 then [pair.1] else []

/-- What one call makes of the cursor: an answer that the table holds, and the books kept. -/
structure Stepped (reading : Reading K) (table : Table K V) (before : Cursor K V)
    (answer : Option (K × V)) (after : Cursor K V) : Prop where
  mapId : after.mapId = before.mapId
  exponent : after.exponent = before.exponent
  stands : Stands reading table after
  held : ∀ pair, answer = some pair → reading.same pair.1 pair.1 = true →
    ⟨pair.1, pair.2⟩ ∈ table.entries
  tracks : ∀ (shown : List K) (stays : K → Prop),
    (∀ key, stays key → ∃ entry ∈ table.entries, reading.same key entry.key = true) →
    Tracks reading table.seed before (shown ++ waiting before.pending) stays →
    Tracks reading table.seed after (shownBy reading answer ++ shown ++ waiting after.pending) stays

/-- A call that answers nothing and keeps the cursor as it was. -/
theorem Stepped.refl (stands : Stands reading table cursor) :
    Stepped reading table cursor none cursor where
  mapId := rfl
  exponent := rfl
  stands := stands
  held _ nothing := by cases nothing
  tracks _ _ _ tracks := tracks

/-- Two steps, the first without an answer. -/
theorem Stepped.trans {before between after : Cursor K V} {answer : Option (K × V)}
    (first : Stepped reading table before none between)
    (second : Stepped reading table between answer after) :
    Stepped reading table before answer after where
  mapId := second.mapId.trans first.mapId
  exponent := second.exponent.trans first.exponent
  stands := second.stands
  held := second.held
  tracks shown stays present tracks :=
    second.tracks shown stays present (first.tracks shown stays present tracks)

/-- What is queued for a stored entry can be looked up, or is a copy. -/
theorem fits_queued (sound : table.Sound (reading.rules exact)) {index : Nat}
    {entry : Entry K V} (found : entry ∈ gathered reading table cursor index) :
    (queued reading entry).Fits reading := by
  obtain ⟨rest, all⟩ := gathered_perm sound cursor index
  unfold queued
  split
  · rename_i known
    have stored := all.mem_iff.mp (List.mem_append_left _ found)
    exact ⟨known, table.seed, code_of_mem sound stored known⟩
  · rename_i stray
    exact Bool.eq_false_iff.mpr stray

theorem Stands.dequeue {item : Pending K V} {rest : List (Pending K V)}
    (stands : Stands reading table cursor) (queue : cursor.pending = item :: rest) :
    Stands reading table { cursor with pending := rest } :=
  ⟨stands.grown, stands.bound, stands.nodup, fun _ mem => stands.fits _ (queue ▸ .tail _ mem)⟩

/-- What one call of a cursor does, item by item, over a table that stays as it is. -/
inductive Strides (reading : Reading K) (table : Table K V) :
    Cursor K V → Option (K × V) → Cursor K V → Prop
  | ended {cursor : Cursor K V} (finished : cursor.finished = true) :
      Strides reading table cursor none cursor
  | drop {cursor after : Cursor K V} {answer : Option (K × V)} {key : K}
      {rest : List (Pending K V)} (running : cursor.finished = false)
      (queue : cursor.pending = .key key :: rest)
      (absent : reading.Coherent → ∀ entry ∈ table.entries, reading.same key entry.key = false)
      (later : Strides reading table { cursor with pending := rest } answer after) :
      Strides reading table cursor answer after
  | found {cursor : Cursor K V} {key : K} {entry : Entry K V} {rest : List (Pending K V)}
      (running : cursor.finished = false) (queue : cursor.pending = .key key :: rest)
      (stored : entry ∈ table.entries) (same : reading.same key entry.key = true) :
      Strides reading table cursor (some (entry.key, entry.value)) { cursor with pending := rest }
  | copied {cursor : Cursor K V} {key : K} {value : V} {rest : List (Pending K V)}
      (running : cursor.finished = false) (queue : cursor.pending = .copied key value :: rest) :
      Strides reading table cursor (some (key, value)) { cursor with pending := rest }
  | collect {cursor after : Cursor K V} {answer : Option (K × V)} {left : Nat}
      (running : cursor.finished = false) (idle : cursor.pending = [])
      (more : cursor.indicesLeft = left + 1)
      (later : Strides reading table ((cursor.turned left).plus reading
        (gathered reading table cursor cursor.nextIndex)) answer after) :
      Strides reading table cursor answer after
  | finish {cursor : Cursor K V} (running : cursor.finished = false) (idle : cursor.pending = [])
      (done : cursor.indicesLeft = 0) :
      Strides reading table cursor none { cursor with finished := true }

/-- Where nothing is shown the queue is empty, and the call goes on from there. -/
theorem drain_ends (follows : scheme.Follows reading) (sound : table.Sound (reading.rules exact))
    (items : List (Pending K V)) :
    ∀ (cursor : Cursor K V) {env : KeyEnv δ}, cursor.pending = items →
      cursor.finished = false → (∀ item ∈ items, item.Fits reading) →
      Ends (drain scheme table items) (cursor, env)
        (fun answer s => match answer with
          | some pair => Strides reading table cursor (some pair) s.1
          | none => s.1 = { cursor with pending := [] } ∧ ∀ answer after,
              Strides reading table s.1 answer after → Strides reading table cursor answer after)
        (fun _ _ => ¬ reading.Steadfast) := by
  induction items with
  | nil =>
    intro cursor env empty _ _
    refine ⟨?_, fun _ _ strides => strides⟩
    rw [← empty]
  | cons item rest ih =>
    intro cursor env queue running fits
    unfold drain
    rw [ends_bind, ends_modify]
    cases item with
    | copied key value => exact .copied running queue
    | key key =>
      simp only
      rw [ends_bind, ends_second]
      refine (Table.findStored_ends follows sound (fits _ (.head _)) env).mono ?_
        fun _ _ fails => fails
      rintro (_ | entry) env found
      · refine (ih { cursor with pending := rest } rfl running
          fun item mem => fits item (.tail _ mem)).mono ?_ fun _ _ fails => fails
        rintro (_ | pair) s later
        · exact ⟨later.1, fun answer after strides =>
            .drop running queue found (later.2 answer after strides)⟩
        · exact .drop running queue found later
      · exact .found running queue found.1 found.2

/-- A cursor that turns to its next index stands where that index's entries can be looked up. -/
theorem Stands.collected (sound : table.Sound (reading.rules exact))
    (stands : Stands reading table cursor) (idle : cursor.pending = []) {left : Nat}
    (more : cursor.indicesLeft = left + 1) :
    Stands reading table
      ((cursor.turned left).plus reading (gathered reading table cursor cursor.nextIndex)) := by
  have ahead := ahead_turned stands.bound more
  refine ⟨stands.grown, Nat.mod_lt _ (bucketCount_pos _), ?_, fun item mem => ?_⟩
  · exact (List.nodup_cons.mp (ahead ▸ stands.nodup)).2
  · change item ∈ cursor.pending ++ _ at mem
    rw [idle, List.nil_append] at mem
    obtain ⟨entry, found, rfl⟩ := List.mem_map.mp mem
    exact fits_queued sound found

/-- Turning to the next index queues its class, whose keys can all be looked up. -/
theorem Stepped.collected (coherent : reading.Coherent)
    (sound : table.Sound (reading.rules exact)) (distinct : Distinct reading table.entries)
    (stands : Stands reading table cursor) (idle : cursor.pending = []) {left : Nat}
    (more : cursor.indicesLeft = left + 1) :
    Stepped reading table cursor none
      ((cursor.turned left).plus reading (gathered reading table cursor cursor.nextIndex)) := by
  refine ⟨rfl, rfl, stands.collected sound idle more, by simp, fun shown stays present tracks => ?_⟩
  rw [idle] at tracks
  have collected := tracks.collected coherent sound distinct present stands more
  rw [waiting, List.filterMap_nil, List.append_nil] at collected
  change Tracks _ _ _ (shown ++ waiting (cursor.pending ++ _)) stays
  rw [idle, List.nil_append]
  exact ⟨collected.apart, collected.passed, collected.covered⟩

theorem advance_ends (follows : scheme.Follows reading) (sound : table.Sound (reading.rules exact))
    (indices : Nat) :
    ∀ (cursor : Cursor K V) {env : KeyEnv δ}, cursor.indicesLeft = indices →
      cursor.pending = [] → cursor.finished = false →
      Ends (advance scheme table indices) (cursor, env)
        (fun answer s => Strides reading table cursor answer s.1)
        (fun _ _ => ¬ reading.Steadfast) := by
  induction indices with
  | zero =>
    intro cursor env done idle running
    exact .finish running idle done
  | succ left ih =>
    intro cursor env more idle running
    unfold advance
    rw [ends_bind, ends_read]
    simp only
    rw [ends_bind, ends_modify, ends_bind]
    apply (collect_yields follows sound cursor.nextIndex env).ends
    rintro _ ⟨_, env⟩ rfl
    rw [ends_bind, ends_read, ends_bind]
    refine (drain_ends follows sound _ ((cursor.turned left).plus reading
      (gathered reading table cursor cursor.nextIndex)) rfl running ?_).mono ?_
        fun _ _ fails => fails
    · intro item mem
      change item ∈ cursor.pending ++ _ at mem
      rw [idle, List.nil_append] at mem
      obtain ⟨entry, found, rfl⟩ := List.mem_map.mp mem
      exact fits_queued sound found
    · rintro (_ | pair) ⟨between, env⟩ later
      · obtain ⟨rfl, further⟩ := later
        refine (ih { cursor.turned left with pending := [] } rfl rfl running).mono ?_
          fun _ _ fails => fails
        exact fun answer s strides => .collect running idle more (further answer s.1 strides)
      · exact .collect running idle more later

/-- A new cursor has shown nothing and has every index ahead. -/
theorem ofMap_yields (reading : Reading K) (map : Map K V) (env : KeyEnv δ) :
    Yields (ofMap map) env fun cursor _ => map.id = cursor.mapId ∧
      Stands reading map.table cursor ∧ cursor.pending = [] ∧
      cursor.ahead.Perm (List.range (bucketCount cursor.exponent)) ∧
      (cursor.finished = true → map.table.count = 0) := by
  unfold ofMap Start.draw Yields
  rw [ends_bind, ends_bind]
  apply (KeyEnv.draw_yields env).ends
  intro word env _
  have bound : (Start.ofWord map.table.exponent word).index < bucketCount map.table.exponent :=
    Nat.mod_lt _ (bucketCount_pos _)
  have all := Walk.coming_perm bound
  exact ⟨rfl, ⟨Nat.le_refl _, bound, all.nodup_iff.mpr List.nodup_range, by simp⟩, rfl, all,
    of_decide_eq_true⟩

/-- When a step ends the cursor. It answers nothing from then on. -/
structure Closes (before : Cursor K V) (answer : Option (K × V)) (after : Cursor K V) : Prop where
  nothing : answer = none → after.finished = true
  running : answer ≠ none → before.finished = false ∧ after.finished = false
  first : before.finished = false → after.finished = true → after.pending = [] ∧ after.ahead = []
  last : before.finished = true → after = before

theorem next_of_finished {map : Map K V} (mine : map.id = cursor.mapId)
    (finished : cursor.finished = true) (env : KeyEnv δ) :
    next scheme map (cursor, env) = (.ok none, (cursor, env)) := by
  have ended : Ends (next scheme map) (cursor, env)
      (fun answer s => answer = none ∧ s = (cursor, env)) fun _ _ => False := by
    unfold next
    rw [ends_bind, ends_read]
    simp only [mine, finished, if_true]
    exact ⟨rfl, rfl⟩
  obtain ⟨_, _, run, rfl, rfl⟩ := yields_iff.mp ended
  exact run

theorem next_strides (follows : scheme.Follows reading) {map : Map K V}
    (sound : map.Sound (reading.rules exact)) (mine : map.id = cursor.mapId)
    (fits : ∀ item ∈ cursor.pending, item.Fits reading) (env : KeyEnv δ) :
    Ends (next scheme map) (cursor, env)
      (fun answer s => Strides reading map.table cursor answer s.1)
      (fun _ _ => ¬ reading.Steadfast) := by
  by_cases finished : cursor.finished = true
  · unfold Ends
    rw [next_of_finished mine finished]
    exact .ended finished
  · have running := Bool.eq_false_iff.mpr finished
    unfold next
    rw [ends_bind, ends_read]
    simp only [mine, running, if_true, Bool.false_eq_true, if_false]
    have unlatched : map.latch.check .iterationDuringWrite = .ok () := by
      simp [Latch.check, sound.free]
    rw [ends_bind, ends_check_ok unlatched, ends_bind]
    refine (drain_ends follows sound.table _ cursor rfl running fits).mono ?_ fun _ _ fails => fails
    rintro (_ | pair) ⟨between, env⟩ later
    · obtain ⟨rfl, further⟩ := later
      rw [ends_bind, ends_read]
      refine (advance_ends follows sound.table _ { cursor with pending := [] } rfl rfl
        running).mono ?_ fun _ _ fails => fails
      exact fun answer s strides => further answer s.1 strides
    · exact later

namespace Strides

variable {before after : Cursor K V} {answer : Option (K × V)}

/-- The entries shown are those of the table, and each item that leaves the queue is either shown or
gone. -/
theorem stepped (coherent : reading.Coherent) (sound : table.Sound (reading.rules exact))
    (distinct : Distinct reading table.entries) (stands : Stands reading table before)
    (strides : Strides reading table before answer after) :
    Stepped reading table before answer after := by
  have first {cursor : Cursor K V} {key : K} {rest : List (Pending K V)} {shown : List K}
      {stays : K → Prop} (queue : cursor.pending = .key key :: rest)
      (tracks : Tracks reading table.seed cursor (shown ++ waiting cursor.pending) stays) :
      Tracks reading table.seed { cursor with pending := rest } (key :: (shown ++ waiting rest))
        stays := by
    rw [queue] at tracks
    exact Tracks.perm coherent ⟨tracks.apart, tracks.passed, tracks.covered⟩ List.perm_middle
  induction strides with
  | ended => exact .refl stands
  | @drop cursor _ _ _ rest _ queue absent _ ih =>
    have later := stands.dequeue queue
    have dropped : Stepped reading table cursor none { cursor with pending := rest } :=
      ⟨rfl, rfl, later, by simp, fun shown stays present tracks =>
        (first queue tracks).skip coherent present (absent coherent)⟩
    exact dropped.trans (ih later)
  | found _ queue stored same =>
    refine ⟨rfl, rfl, stands.dequeue queue, ?_, fun shown stays _ tracks => ?_⟩
    · rintro _ ⟨⟩ _
      exact stored
    · rw [shownBy, if_pos (coherent.straysApart _ _ same).2]
      exact (first queue tracks).rename coherent same
  | @copied _ key value _ _ queue =>
    have stray : reading.Stray key := stands.fits (.copied key value) (queue ▸ .head _)
    refine ⟨rfl, rfl, stands.dequeue queue, ?_, fun shown stays _ tracks => ?_⟩
    · rintro _ ⟨⟩ known
      cases known.symm.trans stray
    · rw [queue] at tracks
      rw [shownBy, stray]
      exact ⟨tracks.apart, tracks.passed, tracks.covered⟩
  | collect _ idle more _ ih =>
    have collected := Stepped.collected coherent sound distinct stands idle more
    exact collected.trans (ih collected.stands)
  | finish =>
    exact ⟨rfl, rfl, ⟨stands.grown, stands.bound, stands.nodup, stands.fits⟩, by simp,
      fun _ _ _ tracks => ⟨tracks.apart, tracks.passed, tracks.covered⟩⟩

theorem closes (strides : Strides reading table before answer after) :
    Closes before answer after := by
  induction strides with
  | ended finished =>
    exact ⟨fun _ => finished, fun more => absurd rfl more,
      fun running => absurd finished (Bool.eq_false_iff.mp running), fun _ => rfl⟩
  | drop running _ _ _ ih | collect running _ _ _ ih =>
    exact ⟨ih.nothing, ih.running, ih.first,
      fun finished => absurd finished (Bool.eq_false_iff.mp running)⟩
  | found running | copied running =>
    exact ⟨by simp, fun _ => ⟨running, running⟩,
      fun _ finished => absurd finished (Bool.eq_false_iff.mp running),
      fun finished => absurd finished (Bool.eq_false_iff.mp running)⟩
  | finish running idle done =>
    refine ⟨fun _ => rfl, fun more => absurd rfl more, fun _ _ => ⟨idle, ?_⟩,
      fun finished => absurd finished (Bool.eq_false_iff.mp running)⟩
    unfold ahead
    rw [done]
    rfl

end Strides

theorem next_ends (follows : scheme.Follows reading) (coherent : reading.Coherent)
    {map : Map K V} (sound : map.Sound (reading.rules exact))
    (distinct : Distinct reading map.table.entries) (mine : map.id = cursor.mapId)
    (stands : Stands reading map.table cursor) (env : KeyEnv δ) :
    Ends (next scheme map) (cursor, env)
      (fun answer s => Stepped reading map.table cursor answer s.1 ∧ Closes cursor answer s.1)
      (fun _ _ => ¬ reading.Steadfast) :=
  (next_strides follows sound mine stands.fits env).mono (fun _ _ strides =>
    ⟨strides.stepped coherent sound.table distinct stands, strides.closes⟩) fun _ _ fails => fails

end Cursor

end GradualMap
