import GradualMap.Proofs.Fault

/-!
What a write does not touch. With no resize in flight an insertion or a removal works on one chain:
it writes one slot of it, links at most one bucket at its end, and a removal makes holes before its
slot part of the empty rest. Everything else stays, slot by slot.
-/

namespace GradualMap

open GradualMap.Action

variable {K V δ ρ : Type}

theorem KeyScheme.Follows.hashKey_yields {scheme : KeyScheme K δ} {reading : Reading K}
    (follows : scheme.Follows reading) {key : K} {seed hash : UInt64}
    (known : reading.same key key = true) (code : reading.code key seed = .ok hash)
    (env : KeyEnv δ) : Yields (scheme.hashKey key seed) env fun answer _ => answer = hash := by
  refine (follows.reproduces.hashKey_ends key seed env).mono ?_ ?_
  · exact fun answer _ code' => Except.ok.inj ((code' known).symm.trans code)
  · rintro _ _ ⟨_, refusal, refused, _⟩
    rw [refused] at code
    cases code

namespace Row

variable {row : List (Slot K V)}

/-- A row in which one live slot was emptied. Of the others only holes are retagged, and only where
no live slot comes after them any more. -/
structure Emptied (offset : Nat) (before after : List (Slot K V)) : Prop where
  length : after.length = before.length
  emptied : after[offset]? = some .hole ∧ live (after.drop offset) ≠ [] ∨
    after[offset]? = some .empty ∧ live (after.drop offset) = []
  others : ∀ i, i ≠ offset → after[i]? = before[i]? ∨
    before[i]? = some .hole ∧ after[i]? = some .empty ∧ live (after.drop i) = []

/-- The run of holes that ends at an emptied slot becomes part of the empty rest. -/
theorem settle_hole {earlier : List (Slot K V)}
    (used : ∀ slot ∈ earlier, slot.IsFull ∨ slot = .hole) :
    ∃ kept run, earlier ++ [.hole] = kept ++ run ∧ kept.length ≤ earlier.length ∧
      (∀ slot ∈ run, slot = .hole) ∧
      settle (· = .emptyOne) (earlier ++ [.hole]) =
        kept ++ List.replicate run.length .empty := by
  obtain ⟨kept, run, parts, settled, passed, last⟩ :=
    settle_eq (· = .emptyOne) (earlier ++ [(.hole : Slot K V)])
  have holes : ∀ slot ∈ run, slot = .hole := by
    intro slot mem
    have passed := passed slot mem
    rcases List.mem_append.mp (parts ▸ List.mem_append_right kept mem) with mem | mem
    · rcases used slot mem with ⟨_, _, _, rfl⟩ | hole
      · simp [Slot.full] at passed
      · exact hole
    · exact List.mem_singleton.mp mem
  -- The emptied slot is a hole itself, so the run is not empty.
  have reaches : kept.length ≤ earlier.length := by
    have lengths := congrArg List.length parts
    rw [List.length_append, List.length_append, List.length_singleton] at lengths
    cases run with
    | nil =>
      rw [List.append_nil] at parts
      have stops := last .hole (by simp [← parts])
      simp [Slot.hole] at stops
    | cons head run =>
      rw [List.length_cons] at lengths
      omega
  refine ⟨kept, run, parts, reaches, holes, ?_⟩
  rw [settled, map_emptyRest fun slot mem => by rw [holes slot mem]; rfl]

/-- What becomes of the end of a row that is made an empty rest. -/
theorem getElem?_rest {kept rest : List (Slot K V)}
    (idle : ∀ slot ∈ rest, slot = .hole ∨ slot = .empty) (i : Nat) :
    (kept ++ List.replicate rest.length .empty)[i]? = (kept ++ rest)[i]? ∨
      (kept ++ rest)[i]? = some .hole ∧
        (kept ++ List.replicate rest.length .empty)[i]? = some .empty ∧
        live ((kept ++ List.replicate rest.length Slot.empty).drop i) = [] := by
  by_cases inside : i < kept.length
  · left
    rw [List.getElem?_append_left inside, List.getElem?_append_left inside]
  · rw [Nat.not_lt] at inside
    rw [List.getElem?_append_right inside, List.getElem?_append_right inside,
      List.drop_append, List.drop_of_length_le inside, List.nil_append, List.drop_replicate,
      live_replicate, List.getElem?_replicate]
    by_cases bound : i - kept.length < rest.length
    · rw [if_pos bound, List.getElem?_eq_getElem bound]
      rcases idle _ (List.getElem_mem bound) with hole | empty
      · exact .inr ⟨congrArg some hole, rfl, rfl⟩
      · exact .inl (congrArg some empty.symm)
    · rw [if_neg bound, List.getElem?_eq_none (Nat.le_of_not_lt bound)]
      exact .inl rfl

end Row

/-- The retagging after a removal, by whether a live slot follows the emptied one. -/
theorem Chain.settleAt_hole {chain : Chain K V} {earlier later : List (Slot K V)} {slot : Slot K V}
    (split : chain.slots = earlier ++ slot :: later) (full : slot.IsFull)
    (tidy : Row.Tidy True chain.slots) :
    ((chain.set earlier.length .hole).settleAt earlier.length).slots = earlier ++ .hole :: later ∧
        Row.live later ≠ [] ∨
      ∃ kept rest, earlier ++ .hole :: later = kept ++ rest ∧ kept.length ≤ earlier.length ∧
        (∀ slot ∈ rest, slot = .hole ∨ slot = .empty) ∧ Row.live later = [] ∧
        ((chain.set earlier.length .hole).settleAt earlier.length).slots =
          kept ++ List.replicate rest.length .empty := by
  rw [split] at tidy
  rcases slots_remove split tidy.after with ⟨n, rfl, eq⟩ | ⟨eq, needed⟩
  · obtain ⟨kept, run, parts, reaches, holes, settled⟩ := Row.settle_hole (tidy.before_full full)
    refine .inr ⟨kept, run ++ List.replicate n .empty, ?_, reaches, ?_, Row.live_replicate n, ?_⟩
    · rw [← List.append_assoc, ← parts, List.append_assoc]
      rfl
    · intro slot mem
      rcases List.mem_append.mp mem with mem | mem
      · exact .inl (holes slot mem)
      · exact .inr (List.eq_of_mem_replicate mem)
    · rw [eq, settled, List.append_assoc, List.replicate_append_replicate, List.length_append,
        List.length_replicate]
  · exact .inl ⟨eq, needed trivial⟩

/-- A removal from a chain empties its slot, and retags no more than holes before it. -/
theorem Chain.emptied_settleAt {chain : Chain K V} {offset : Nat} {top : UInt8} {entry : Entry K V}
    (tidy : Row.Tidy True chain.slots) (here : chain.slots[offset]? = some (.full top entry)) :
    Row.Emptied offset chain.slots ((chain.set offset .hole).settleAt offset).slots := by
  have full : (Slot.full top entry).IsFull :=
    (tidy.mem _ (List.mem_of_getElem? here)).resolve_right (by rintro (⟨⟨⟩⟩ | ⟨⟨⟩⟩))
  obtain ⟨earlier, later, rfl, split, replaced⟩ := Row.eq_append_of_getElem? here
  have apart (i : Nat) (ne : i ≠ earlier.length) :
      (earlier ++ .hole :: later)[i]? = chain.slots[i]? := by
    rw [← replaced, List.getElem?_set_ne (Ne.symm ne)]
  have length : (earlier ++ Slot.hole :: later).length = chain.slots.length := by simp [split]
  rcases settleAt_hole split full tidy with ⟨same, live⟩ | ⟨kept, rest, parts, reaches, idle, none, eq⟩
  · rw [same]
    refine ⟨length, .inl ⟨by simp, by simpa using live⟩, fun i ne => .inl (apart i ne)⟩
  · rw [eq]
    rw [parts] at apart length
    have bound : earlier.length - kept.length < rest.length := by
      have lengths := congrArg List.length parts
      rw [List.length_append, List.length_append, List.length_cons] at lengths
      omega
    refine ⟨?_, .inr ⟨?_, ?_⟩, fun i ne => ?_⟩
    · rw [← length, List.length_append, List.length_append, List.length_replicate]
    · rw [List.getElem?_append_right reaches, List.getElem?_replicate, if_pos bound]
    · rw [List.drop_append, List.drop_of_length_le reaches, List.nil_append, List.drop_replicate,
        Row.live_replicate]
    · rw [← apart i ne]
      exact Row.getElem?_rest idle i

theorem Chain.cells_settleAt (chain : Chain K V) (offset : Nat) :
    (chain.settleAt offset).cells = chain.cells := by
  unfold settleAt
  split <;> rfl

namespace Table

variable {scheme : KeyScheme K δ} {reading : Reading K} {key : K} {hash : UInt64}
  {table : Table K V} {env : Env δ} {index offset : Nat} {top : UInt8} {entry : Entry K V}

/-- A table in which one slot of chain `index` was emptied. -/
structure Emptied (index offset : Nat) (before after : Table K V) : Prop where
  slots : Row.Emptied offset (before.current.chainAt index).slots
    (after.current.chainAt index).slots
  cells : (after.current.chainAt index).cells = (before.current.chainAt index).cells
  others : ∀ i, i ≠ index → after.current.chainAt i = before.current.chainAt i
  size : after.current.size = before.current.size
  linked : after.current.linked = before.current.linked
  vacant : after.current.vacant = before.current.vacant
  count : after.count + 1 = before.count
  exponent : after.exponent = before.exponent
  overflowCount : after.overflowCount = before.overflowCount
  resize : after.resize = before.resize
  seed : after.count ≠ 0 → after.seed = before.seed

theorem Emptier.emptied {log : List Event} {after : Table K V × List Event}
    (taken : Emptier table log index offset after) (sound : table.Sound Rules.any)
    (holds : table.Holds ⟨.current, index, offset⟩ top entry) :
    Emptied index offset table after.1 := by
  obtain ⟨bound, here⟩ := holds_current.mp holds
  have written := BucketArray.chainAt_modify_setSlot bound offset .hole (·.settleAt offset)
  have chain := (written index).trans (if_pos rfl)
  have filled : table.count ≠ 0 := by
    intro none
    have stored := sound.mem_of_holds holds
    rw [sound.entries_eq_nil.mp none] at stored
    cases stored
  have current : after.1.current = (table.without index offset).current := by cases taken <;> rfl
  have count : after.1.count = table.count - 1 := by cases taken <;> rfl
  refine ⟨?_, ?_, ?_, ?_, ?_, ?_, ?_, ?_, ?_, ?_, ?_⟩
  · rw [current, without, chain]
    exact Chain.emptied_settleAt (sound.chains index bound).tidy here
  · rw [current, without, chain, Chain.cells_settleAt]
    rfl
  · intro i ne
    rw [current, without]
    exact (written i).trans (if_neg ne)
  · rw [current]
    simp [without]
  · rw [current]
    rfl
  · rw [current]
    rfl
  · omega
  · cases taken <;> rfl
  · cases taken <;> rfl
  · cases taken <;> rfl
  · intro more
    cases taken with
    | some => rfl
    | last empty => exact absurd empty more

theorem Emptier.log_eq {log : List Event} {after : Table K V × List Event}
    (taken : Emptier table log index offset after) :
    after.2 = if after.1.count = 0 then .emptied :: log else log := by
  cases taken with
  | some more => rw [if_neg more]
  | last empty seed => exact (if_pos empty).symm

/-- Whether an estimate counts one more bucket is left to chance in a large table, and nothing else. -/
theorem linkOverflow_counts (table : Table K V) (index : Nat) (env : Env δ) :
    Yields (linkOverflow index) (table, env) fun _ s =>
      s.1.overflowCount = table.overflowCount ∨
        s.1.overflowCount = min (table.overflowCount + 1) maxOverflowCount := by
  have counted (counts : Bool) (env : Env δ) : Yields
      (if counts then modify fun table : Table K V =>
        { table with overflowCount := min (table.overflowCount + 1) maxOverflowCount }
       else pure ()) ({ table with current := table.current.link index }, env) fun _ s =>
      s.1.overflowCount = table.overflowCount ∨
        s.1.overflowCount = min (table.overflowCount + 1) maxOverflowCount := by
    cases counts
    · exact .inl rfl
    · exact .inr rfl
  unfold linkOverflow countOverflow Yields
  simp only [ends_bind, ends_modify, ends_read]
  split
  · exact counted true env
  · rw [ends_bind, ends_map, ends_onKeys]
    exact (KeyEnv.draw_yields _).ends fun word keys _ => counted _ _

section

variable (follows : scheme.Follows reading) (coherent : reading.Coherent)
  (kept : table.Kept reading) (idle : table.resize = none) (allocated : table.current.size ≠ 0)
  (hashes : reading.same key key = true → reading.code key table.seed = .ok hash)
include follows coherent kept idle allocated hashes

/-- A search of the chain of its hash finds a present key, and otherwise the first free slot. -/
theorem probe_seeks (keys : KeyEnv δ) :
    Yields ((table.current.chainAt (bucketIndex hash table.exponent)).probe scheme key hash) keys
      fun answer _ =>
        (∃ offset entry, answer = .found offset ∧
          table.Holds ⟨.current, bucketIndex hash table.exponent, offset⟩ (topHash hash) entry ∧
          reading.same key entry.key = true) ∨
        answer = .missing ((table.current.chainAt (bucketIndex hash table.exponent)).slots.findIdx?
          (·.tag.isEmpty)) ∧ ∀ entry ∈ table.entries, reading.same key entry.key = false := by
  have bound := kept.sound.bucketIndex_lt allocated hash
  refine (probe_ends (kept.sound.chains _ bound).tidy).mono ?_ fun _ _ => follows.not_balks
  rintro (offset | free) keys probed
  · obtain ⟨j, entry, rfl, slot, judges⟩ := probed
    refine .inl ⟨_, entry, rfl, holds_current.mpr ⟨bound, ?_⟩, (follows.judges_iff judges).symm⟩
    simpa using slot
  · obtain ⟨rfl, missed⟩ := probed
    have located := (kept.sound.located_none (settled_of_idle idle _)).mpr missed
    exact .inr ⟨by simp, kept.sound.absent coherent follows.agrees hashes located⟩

/-- With no resize in flight a claim searches the chain of the hash at once. -/
theorem claim_ends_of_idle {post : Claim → Table K V × Env δ → Prop}
    {fails : Failure → Table K V × Env δ → Prop}
    (found : ∀ keys offset entry,
      table.Holds ⟨.current, bucketIndex hash table.exponent, offset⟩ (topHash hash) entry →
      reading.same key entry.key = true →
      post (.occupied ⟨.current, bucketIndex hash table.exponent, offset⟩)
        (table, { env with keys }))
    (full : ∀ keys, (∀ entry ∈ table.entries, reading.same key entry.key = false) →
      table.mustGrow = true →
      Ends (do startGrowth; claimWithin scheme key hash (exponentLimit + 1))
        (table, { env with keys }) post fails)
    (roomy : ∀ offset s, (∀ entry ∈ table.entries, reading.same key entry.key = false) →
      table.mustGrow = false →
      Room (bucketIndex hash table.exponent) (table, env.log) offset (s.1, s.2.log) →
      (s.1.overflowCount = table.overflowCount ∨
        s.1.overflowCount = min (table.overflowCount + 1) maxOverflowCount) →
      post (.vacant (bucketIndex hash table.exponent) offset) s) :
    Ends (claim scheme key hash) (table, env) post fails := by
  have bound := kept.sound.bucketIndex_lt allocated hash
  have reserved : table.current.isAllocated = true := by
    simpa [BucketArray.isAllocated] using allocated
  unfold claim reserve
  rw [ends_bind, ends_bind, ends_read]
  simp only [reserved, if_true]
  rw [ends_pure, claimWithin_succ]
  unfold claimRound growWork
  rw [ends_bind, ends_read, ends_bind, ends_bind, ends_read]
  simp only [idle]
  rw [ends_pure, ends_bind, ends_read, ends_bind, ends_check_ok (BucketArray.fetch_eq bound),
    ends_bind, ends_onKeys]
  apply (probe_seeks follows coherent kept idle allocated hashes env.keys).ends
  rintro _ keys (⟨offset, entry, rfl, holds, same⟩ | ⟨rfl, absent⟩)
  · exact found keys offset entry holds same
  · simp only
    rw [ends_bind, ends_read]
    split
    · rename_i must
      exact full keys absent must
    · rename_i calm
      have roomy := fun offset s => roomy offset s absent (Bool.eq_false_iff.mpr calm)
      generalize search : (table.current.chainAt
        (bucketIndex hash table.exponent)).slots.findIdx? (·.tag.isEmpty) = free
      cases free with
      | some offset => exact roomy offset _ (.free search) (.inl rfl)
      | none =>
        simp only
        rw [ends_bind]
        apply ((linkOverflow_yields table _ _).also (linkOverflow_counts table _ _)).ends
        rintro _ ⟨_, env'⟩ ⟨⟨overflowCount, rfl, counted, log⟩, counts⟩
        refine roomy _ _ ?_ counts
        rw [log]
        exact .linked search overflowCount counted

omit allocated in
/-- With no resize in flight a removal has nothing else to do. -/
theorem delete_ends_of_idle (filled : table.count ≠ 0)
    {post : Option (K × V) → Table K V × Env δ → Prop}
    {fails : Failure → Table K V × Env δ → Prop}
    (missing : ∀ s, s.1 = table → s.2.log = env.log →
      (∀ entry ∈ table.entries, reading.same key entry.key = false) → post none s)
    (found : ∀ s offset entry,
      table.Holds ⟨.current, bucketIndex hash table.exponent, offset⟩ (topHash hash) entry →
      reading.same key entry.key = true →
      Emptier table env.log (bucketIndex hash table.exponent) offset (s.1, s.2.log) →
      post (some (entry.key, entry.value)) s) :
    Ends (delete scheme key hash) (table, env) post fails := by
  have held : (reading.rules True).KeptBy scheme := reading.rules_keptBy follows.reproduces True
  have still {i : Nat} {s : Table K V × Env δ} (ready : Readied scheme i (table, env) s) :
      s.1 = table ∧ s.2.log = env.log :=
    Prod.mk.inj (ready.worked.shifts.eq_of_idle idle)
  apply removal_ends held kept.sound filled
  · exact growWork_stalls held kept.sound _ _ fun _ _ stalled => stalled.elim
  · exact fun _ _ _ balks => absurd balks follows.not_balks
  · intro s ready located
    obtain ⟨same, log⟩ := still ready
    exact missing s same log (kept.sound.absent coherent follows.agrees hashes (same ▸ located))
  · rintro ⟨between, env'⟩ s offset entry ready holds judges taken
    obtain ⟨rfl, log⟩ := still ready
    exact found s offset entry holds (follows.judges_iff judges).symm (log ▸ taken)

end

theorem Room.begun {before after : Table K V × List Event} (room : Room index before offset after) :
    after.2.countP Event.starts = before.2.countP Event.starts := by
  cases room with
  | free first => rfl
  | linked full overflowCount counted => simp [Event.starts]

/-- A new key that the table must grow for gets its slot, with one resize started, if there is
memory for the new array. -/
theorem grown_claim_ends (follows : scheme.Follows reading) (sound : table.Sound (reading.rules True))
    (roomy : table.Uncrowded) (allocated : table.current.size ≠ 0)
    (absent : ∀ entry ∈ table.entries, reading.same key entry.key = false)
    (must : table.mustGrow = true) (rounds : Nat) (env : Env δ) :
    Ends (do startGrowth; claimWithin scheme key hash (rounds + 1)) (table, env)
      (fun claim s => (∃ index offset, claim = .vacant index offset) ∧ s.2.begun = env.begun + 1)
      (fun failure s => s = (table, env) ∧ Denied env.grants failure) := by
  have held : (reading.rules True).KeptBy scheme := reading.rules_keptBy follows.reproduces True
  have idle := idle_of_mustGrow must
  rw [ends_bind]
  refine (startGrowth_ends sound allocated env).mono ?_ fun _ _ denied => denied
  rintro _ ⟨_, env'⟩ ⟨rfl, small, log⟩
  have sound' := sound.started idle (sound.size_eq allocated) small
  apply started_round_ends held trivial sound roomy allocated idle small
  · exact fun _ _ stalled => stalled.elim
  · exact fun _ _ balks => absurd balks follows.not_balks
  · intro s offset entry ready holds judges
    obtain ⟨sound'', steady⟩ := ready.worked.shifts.sound held sound'
    have stored : entry ∈ table.entries := by
      rw [← (started_spec sound idle).entries]
      exact steady.entries.mem_iff.mp (sound''.mem_of_holds holds)
    have same := follows.judges_iff judges
    rw [absent entry stored] at same
    cases same
  · intro between s offset ready calm _ room
    refine ⟨⟨_, _, rfl⟩, ?_⟩
    have before : env'.begun = env.begun + 1 := by
      unfold Env.begun
      rw [log]
      exact List.countP_cons_of_pos rfl
    exact (room.begun.trans ready.worked.shifts.begun).trans before

end Table

namespace Map

variable {scheme : KeyScheme K δ} {reading : Reading K} {map : Map K V} {key : K} {env : Env δ}
  {own : ρ} {index offset : Nat} {top : UInt8} {entry : Entry K V}

/-- No entry is for the key. -/
def Lacks (reading : Reading K) (key : K) (map : Map K V) : Prop :=
  ∀ entry ∈ map.table.entries, reading.same key entry.key = false

/-- What a new key makes of a map with no resize in flight: its entry is in the first free slot of
its chain, for which a bucket is linked if there was none, or a resize was started for it. -/
inductive Added (reading : Reading K) (key : K) (value : V) (before after : Map K V × List Event) :
    Prop
  | filled {hash : UInt64} {offset : Nat} {between : Table K V}
      (calm : before.1.table.mustGrow = false)
      (hashes : reading.code key before.1.table.seed = .ok hash)
      (room : Table.Room (bucketIndex hash before.1.table.exponent) (before.1.table, before.2) offset
        (between, after.2))
      (estimate : between.overflowCount = before.1.table.overflowCount ∨
        between.overflowCount = min (before.1.table.overflowCount + 1) maxOverflowCount)
      (same : after.1 = { before.1 with
        table := between.filled (bucketIndex hash before.1.table.exponent) offset hash
          ⟨key, value⟩ })
  | grown (must : before.1.table.mustGrow = true)
      (begun : after.2.countP Event.starts = before.2.countP Event.starts + 1)

/-- Why a new key is not inserted. -/
def Rejects (reading : Reading K) (key : K) (map : Map K V) (env : Env δ) (failure : Failure) :
    Prop :=
  (∃ refusal, reading.code key map.table.seed = .error refusal ∧
    failure = .fault (.refused refusal)) ∨
  map.table.mustGrow = true ∧ Denied env.grants failure

/-- The map with another entry in one slot. -/
def rewritten (map : Map K V) (index offset : Nat) (top : UInt8) (entry : Entry K V) : Map K V :=
  { map with table := map.table.put ⟨.current, index, offset⟩ (.full top entry) }

/-- What each write does to a map, and all that it does. -/
structure WritesLocally (scheme : KeyScheme K δ) (reading : Reading K) (map : Map K V) : Prop where
  /-- A present key is written over, whether or not the next new one must start a resize. -/
  insert_present : ∀ {index offset : Nat} {top : UInt8} {entry : Entry K V} (key : K) (value : V)
    (env : Env δ), map.table.Holds ⟨.current, index, offset⟩ top entry →
    reading.same key entry.key = true →
    Yields (insert? scheme key value) (map, env) fun prior s =>
      prior = some entry.value ∧ s.2.log = env.log ∧
      s.1 = map.rewritten index offset top (overwrite scheme key (fun _ => value) entry)
  getOrInsert_present : ∀ {ρ : Type} {index offset : Nat} {top : UInt8} {entry : Entry K V}
    (key : K) (default : StateM ρ (Except String V)) (f : V → V) (env : Env δ) (own : ρ),
    map.table.Holds ⟨.current, index, offset⟩ top entry → reading.same key entry.key = true →
    Yields (getOrInsert? scheme key default f) ((map, env), own) fun answer s =>
      answer = f entry.value ∧ s.2 = own ∧ s.1.2.log = env.log ∧
      s.1.1 = map.rewritten index offset top (overwrite scheme key f entry)
  insert_absent : ∀ (key : K) (value : V) (env : Env δ), map.Lacks reading key →
    Ends (insert? scheme key value) (map, env)
      (fun prior s => prior = none ∧ Added reading key value (map, env.log) (s.1, s.2.log))
      (fun failure s => s.1 = map ∧ s.2.log = env.log ∧ Rejects reading key map env failure)
  getOrInsert_absent : ∀ {ρ : Type} (key : K) (default : StateM ρ (Except String V)) (f : V → V)
    (env : Env δ) (own : ρ) (fresh : V), map.Lacks reading key →
    (default own).1 = .ok fresh →
    Ends (getOrInsert? scheme key default f) ((map, env), own)
      (fun answer s => answer = f fresh ∧ s.2 = (default own).2 ∧
        Added reading key (f fresh) (map, env.log) (s.1.1, s.1.2.log))
      (fun failure s => s.1.1 = map ∧ s.1.2.log = env.log ∧ s.2 = own ∧
        Rejects reading key map env failure)
  remove_present : ∀ {index offset : Nat} {top : UInt8} {entry : Entry K V} (key : K)
    (env : Env δ), map.table.Holds ⟨.current, index, offset⟩ top entry →
    reading.same key entry.key = true →
    Yields (removePair? scheme key) (map, env) fun answer s =>
      answer = some (entry.key, entry.value) ∧ s.1 = { map with table := s.1.table } ∧
      Table.Emptied index offset map.table s.1.table ∧
      s.2.log = if s.1.table.count = 0 then .emptied :: env.log else env.log
  remove_absent : ∀ (key : K) (env : Env δ), map.Lacks reading key →
    Ends (removePair? scheme key) (map, env)
      (fun answer s => answer = none ∧ s.1 = map ∧ s.2.log = env.log)
      (fun failure s => s.1 = map ∧ s.2.log = env.log ∧ ∃ seed refusal,
        reading.code key seed = .error refusal ∧ failure = .fault (.refused refusal))

theorem released (free : map.latch.held = false) (table : Table K V) :
    ({ map with table, latch := ⟨false⟩ } : Map K V) = { map with table } := by
  obtain ⟨_, ⟨held⟩, _⟩ := map
  cases free
  rfl

/-- A present key is not refused. -/
theorem code_of_holds (coherent : reading.Coherent) (kept : map.table.Kept reading)
    (holds : map.table.Holds ⟨.current, index, offset⟩ top entry)
    (same : reading.same key entry.key = true) :
    ∃ hash, reading.code key map.table.seed = .ok hash ∧ map.table.current.size ≠ 0 := by
  obtain ⟨_, known⟩ := coherent.straysApart _ _ same
  obtain ⟨hash, code, _⟩ := kept.sound.seated holds known
  have bound := (Table.holds_current.mp holds).1
  exact ⟨hash, (coherent.alike _ _ _ same).trans code, by omega⟩

section

variable (follows : scheme.Follows reading) (coherent : reading.Coherent)
  (kept : map.table.Kept reading) (free : map.latch.held = false) (idle : map.table.resize = none)
include follows coherent kept idle

/-- A claim for a present key is granted the slot of its entry. -/
theorem claim_present (holds : map.table.Holds ⟨.current, index, offset⟩ top entry)
    (same : reading.same key entry.key = true) {hash : UInt64}
    (code : reading.code key map.table.seed = .ok hash) (allocated : map.table.current.size ≠ 0)
    (env : Env δ) :
    Yields (Table.claim scheme key hash) (map.table, env) fun claim s =>
      claim = .occupied ⟨.current, index, offset⟩ ∧ s.1 = map.table ∧ s.2.log = env.log := by
  have stored := kept.sound.mem_of_holds holds
  have present : ¬ map.Lacks reading key := by
    intro absent
    rw [absent entry stored] at same
    cases same
  apply Table.claim_ends_of_idle follows coherent kept idle allocated fun _ => code
  · intro keys offset' entry' holds' same'
    have filed := kept.sound.filed coherent kept.distinct
    have one := filed.alone _ _ _ _ _ _ holds holds'
      (coherent.trans _ _ _ (coherent.symm _ _ same) same')
    rw [one]
    exact ⟨rfl, rfl, rfl⟩
  · exact fun _ absent => absurd absent present
  · exact fun _ _ absent => absurd absent present

/-- A claim for a new key is granted the first free slot of its chain, or one after a resize was
started. -/
theorem claim_absent (absent : map.Lacks reading key) {hash : UInt64}
    (code : reading.code key map.table.seed = .ok hash) (roomy : map.table.Uncrowded)
    (allocated : map.table.current.size ≠ 0) (env : Env δ) :
    Ends (Table.claim scheme key hash) (map.table, env)
      (fun claim s => ∃ index offset, claim = .vacant index offset ∧ ∀ value,
        Added reading key value (map, env.log)
          ({ map with table := s.1.filled index offset hash ⟨key, value⟩ }, s.2.log))
      (fun failure s => s.1 = map.table ∧ s.2.log = env.log ∧ map.table.mustGrow = true ∧
        Denied env.grants failure) := by
  apply Table.claim_ends_of_idle follows coherent kept idle allocated fun _ => code
  · intro keys offset entry holds same
    rw [absent entry (kept.sound.mem_of_holds holds)] at same
    cases same
  · intro keys _ must
    refine (Table.grown_claim_ends follows kept.sound roomy allocated absent must _ _).mono ?_ ?_
    · rintro _ s ⟨⟨index, offset, rfl⟩, begun⟩
      exact ⟨index, offset, rfl, fun _ => .grown must begun⟩
    · rintro failure _ ⟨rfl, denied⟩
      exact ⟨rfl, rfl, must, denied⟩
  · intro offset s _ calm room estimate
    exact ⟨_, offset, rfl, fun _ => .filled calm code room estimate rfl⟩

include free

theorem insert?_present (holds : map.table.Holds ⟨.current, index, offset⟩ top entry)
    (same : reading.same key entry.key = true) (value : V) (env : Env δ) :
    Yields (insert? scheme key value) (map, env) fun prior s =>
      prior = some entry.value ∧ s.2.log = env.log ∧
      s.1 = map.rewritten index offset top (overwrite scheme key (fun _ => value) entry) := by
  obtain ⟨hash, code, allocated⟩ := code_of_holds coherent kept holds same
  unfold insert? Yields
  rw [ends_bind, ends_read, ends_bind, ends_onKeys]
  apply (follows.hashKey_yields (coherent.straysApart _ _ same).1 code _).ends
  rintro _ keys rfl
  rw [ends_writing free, ends_onTable, ends_bind]
  apply (claim_present follows coherent kept idle holds same code allocated _).ends
  rintro _ ⟨table, env'⟩ ⟨rfl, rfl, log⟩
  simp only
  rw [ends_bind, Table.ends_updateEntry holds]
  exact ⟨rfl, log, released free _⟩

theorem getOrInsert?_present (holds : map.table.Holds ⟨.current, index, offset⟩ top entry)
    (same : reading.same key entry.key = true) (default : StateM ρ (Except String V)) (f : V → V)
    (env : Env δ) (own : ρ) :
    Yields (getOrInsert? scheme key default f) ((map, env), own) fun answer s =>
      answer = f entry.value ∧ s.2 = own ∧ s.1.2.log = env.log ∧
      s.1.1 = map.rewritten index offset top (overwrite scheme key f entry) := by
  obtain ⟨hash, code, allocated⟩ := code_of_holds coherent kept holds same
  unfold getOrInsert? Yields
  rw [ends_bind, ends_first, ends_read, ends_bind, ends_first, ends_onKeys]
  apply (follows.hashKey_yields (coherent.straysApart _ _ same).1 code _).ends
  rintro _ keys rfl
  rw [ends_writingWith free, ends_bind, ends_first, ends_onTable]
  apply (claim_present follows coherent kept idle holds same code allocated _).ends
  rintro _ ⟨table, env'⟩ ⟨rfl, rfl, log⟩
  simp only
  rw [ends_bind, ends_first, ends_onTable, Table.ends_updateEntry holds]
  exact ⟨rfl, rfl, log, released free _⟩

section

variable (known : reading.same key key = true) (absent : map.Lacks reading key)
  (roomy : map.table.Uncrowded) (allocated : map.table.current.size ≠ 0)
include known absent roomy allocated

theorem insert?_absent (value : V) (env : Env δ) :
    Ends (insert? scheme key value) (map, env)
      (fun prior s => prior = none ∧ Added reading key value (map, env.log) (s.1, s.2.log))
      (fun failure s => s.1 = map ∧ s.2.log = env.log ∧ Rejects reading key map env failure) := by
  unfold insert?
  rw [ends_bind, ends_read, ends_bind, ends_onKeys]
  refine (follows.reproduces.hashKey_ends key _ env.keys).mono ?_
    fun _ _ refused => ⟨rfl, rfl, .inl refused.2⟩
  intro hash keys hashed
  rw [ends_writing free, ends_onTable, ends_bind]
  refine (claim_absent follows coherent kept idle absent (hashed known) roomy allocated _).mono ?_ ?_
  · rintro _ ⟨table, env'⟩ ⟨index, offset, rfl, added⟩
    simp only
    rw [ends_bind, Table.ends_fill]
    have added := added value
    rw [← released free] at added
    exact ⟨rfl, added⟩
  · rintro failure ⟨table, env'⟩ ⟨rfl, log, must, denied⟩
    exact ⟨released free _, log, .inr ⟨must, denied⟩⟩

theorem getOrInsert?_absent (default : StateM ρ (Except String V)) (f : V → V) (env : Env δ)
    (own : ρ) {fresh : V} (answers : (default own).1 = .ok fresh) :
    Ends (getOrInsert? scheme key default f) ((map, env), own)
      (fun answer s => answer = f fresh ∧ s.2 = (default own).2 ∧
        Added reading key (f fresh) (map, env.log) (s.1.1, s.1.2.log))
      (fun failure s => s.1.1 = map ∧ s.1.2.log = env.log ∧ s.2 = own ∧
        Rejects reading key map env failure) := by
  unfold getOrInsert?
  rw [ends_bind, ends_first, ends_read, ends_bind, ends_first, ends_onKeys]
  refine (follows.reproduces.hashKey_ends key _ env.keys).mono ?_
    fun _ _ refused => ⟨rfl, rfl, rfl, .inl refused.2⟩
  intro hash keys hashed
  rw [ends_writingWith free, ends_bind, ends_first, ends_onTable]
  refine (claim_absent follows coherent kept idle absent (hashed known) roomy allocated _).mono ?_ ?_
  · rintro _ ⟨table, env'⟩ ⟨index, offset, rfl, added⟩
    simp only
    rw [ends_bind, ends_second, ends_lift, answers]
    simp only
    rw [ends_bind, ends_first, ends_onTable, Table.ends_fill]
    have added := added (f fresh)
    rw [← released free] at added
    exact ⟨rfl, rfl, added⟩
  · rintro failure ⟨table, env'⟩ ⟨rfl, log, must, denied⟩
    exact ⟨released free _, log, rfl, .inr ⟨must, denied⟩⟩

end

theorem removePair?_present (holds : map.table.Holds ⟨.current, index, offset⟩ top entry)
    (same : reading.same key entry.key = true) (env : Env δ) :
    Yields (removePair? scheme key) (map, env) fun answer s =>
      answer = some (entry.key, entry.value) ∧ s.1 = { map with table := s.1.table } ∧
      Table.Emptied index offset map.table s.1.table ∧
      s.2.log = if s.1.table.count = 0 then .emptied :: env.log else env.log := by
  obtain ⟨hash, code, _⟩ := code_of_holds coherent kept holds same
  have stored := kept.sound.mem_of_holds holds
  have filled : map.table.count ≠ 0 := by
    intro none
    rw [kept.sound.entries_eq_nil.mp none] at stored
    cases stored
  unfold removePair? Yields
  rw [ends_bind, ends_read, if_neg (by simpa [isEmpty] using filled), ends_bind, ends_read,
    ends_bind, ends_onKeys]
  apply (follows.hashKey_yields (coherent.straysApart _ _ same).1 code _).ends
  rintro hash keys rfl
  rw [ends_writing free, ends_onTable]
  apply Table.delete_ends_of_idle follows coherent kept idle (fun _ => code) filled
  · intro _ _ _ absent
    rw [absent entry stored] at same
    cases same
  · rintro ⟨table, env'⟩ offset' entry' holds' same' taken
    have filed := kept.sound.filed coherent kept.distinct
    have one := filed.alone _ _ _ _ _ _ holds holds'
      (coherent.trans _ _ _ (coherent.symm _ _ same) same')
    rw [← one] at holds'
    obtain ⟨rfl, rfl⟩ : index = bucketIndex hash map.table.exponent ∧ offset = offset' := by
      simpa using one
    obtain ⟨rfl, rfl⟩ : top = topHash hash ∧ entry = entry' := by
      have slots := Except.ok.inj (holds.symm.trans holds')
      simpa [Slot.full] using slots
    exact ⟨rfl, released free _, taken.emptied (kept.sound.any trivial) holds, taken.log_eq⟩

theorem removePair?_absent (absent : map.Lacks reading key) (env : Env δ) :
    Ends (removePair? scheme key) (map, env)
      (fun answer s => answer = none ∧ s.1 = map ∧ s.2.log = env.log)
      (fun failure s => s.1 = map ∧ s.2.log = env.log ∧ ∃ seed refusal,
        reading.code key seed = .error refusal ∧ failure = .fault (.refused refusal)) := by
  unfold removePair?
  rw [ends_bind, ends_read]
  split
  · rw [ends_bind, ends_onKeys]
    unfold Table.probeEmpty
    split
    · rw [ends_discard]
      exact (follows.reproduces.hashKey_ends key 0 env.keys).mono (fun _ _ _ => ⟨rfl, rfl, rfl⟩)
        fun _ _ refused => ⟨rfl, rfl, 0, refused.2⟩
    · exact ⟨rfl, rfl, rfl⟩
  · rename_i filled
    rw [ends_bind, ends_read, ends_bind, ends_onKeys]
    refine (follows.reproduces.hashKey_ends key _ env.keys).mono ?_
      fun _ _ refused => ⟨rfl, rfl, _, refused.2⟩
    intro hash keys hashed
    rw [ends_writing free, ends_onTable]
    apply Table.delete_ends_of_idle follows coherent kept idle hashed
      (by simpa [isEmpty] using filled)
    · rintro ⟨table, env'⟩ rfl log _
      exact ⟨rfl, released free _, log⟩
    · rintro _ offset entry holds same _
      rw [absent entry (kept.sound.mem_of_holds holds)] at same
      cases same

end

end Map

/-- With no resize in flight and keys that are the same as themselves, a write changes the slot of
its key, or the first free one, and nothing else but a bucket linked for it and holes that a removal
leaves behind no live slot. -/
theorem writes_are_local {scheme : KeyScheme K δ} {reading : Reading K}
    (follows : scheme.Follows reading) (coherent : reading.Coherent)
    (known : ∀ key, reading.same key key = true) {map : Map K V}
    (reachable : Reachable scheme map) (allocated : map.table.current.isAllocated = true)
    (idle : map.table.resize = none) : map.WritesLocally scheme reading := by
  have kept := reachable.kept follows.agrees coherent
  have free := reachable.intact.2
  have roomy := reachable.estimated.roomy
  have allocated : map.table.current.size ≠ 0 := by
    simpa [BucketArray.isAllocated] using allocated
  exact {
    insert_present := fun key value env holds same =>
      Map.insert?_present follows coherent kept free idle holds same value env
    getOrInsert_present := fun key default f env own holds same =>
      Map.getOrInsert?_present follows coherent kept free idle holds same default f env own
    insert_absent := fun key value env absent =>
      Map.insert?_absent follows coherent kept free idle (known key) absent roomy allocated value env
    getOrInsert_absent := fun key default f env own fresh absent answers =>
      Map.getOrInsert?_absent follows coherent kept free idle (known key) absent roomy allocated
        default f env own answers
    remove_present := fun key env holds same =>
      Map.removePair?_present follows coherent kept free idle holds same env
    remove_absent := fun key env absent =>
      Map.removePair?_absent follows coherent kept free idle absent env }

/-- A full table has a hole before the word that is written, and the next new word would start a
resize. -/
theorem writes_are_local_past_hole : ∃ map : Map UInt64 Nat,
    map.table.resize = none ∧ map.table.mustGrow = true ∧
    (map.table.current.chainAt 0).slots[0]? = some .hole ∧
    map.table.Holds ⟨.current, 0, 1⟩ 152 ⟨2, 2⟩ ∧
    map.WritesLocally (Key.word {}) (Key.wordReading {}) := by
  have made : Reachable (V := Nat) (Key.word {}) _ := .made .empty (.ample {}) rfl
  obtain ⟨map, reachable, idle, allocated, must, hole, holds⟩ : ∃ map : Map UInt64 Nat,
      Reachable (Key.word {}) map ∧ map.table.resize = none ∧
      map.table.current.isAllocated = true ∧ map.table.mustGrow = true ∧
      (map.table.current.chainAt 0).slots[0]? = some .hole ∧
      map.table.Holds ⟨.current, 0, 1⟩ 152 ⟨2, 2⟩ := by
    refine ⟨_, ((made.after (.extend ((List.range 13).map fun n => (n.toUInt64, n))) (.ample {}) ()
      (by decide +kernel)).after (.remove 0) (.ample {}) () (by decide +kernel)).after
      (.insert 21 21) (.ample {}) () (by decide +kernel), ?_⟩
    unfold Table.Holds
    decide +kernel
  exact ⟨map, idle, must, hole, holds, writes_are_local (Key.word_follows {}) (Key.word_coherent {})
    ((Key.word_follows {}).reflexive rfl) reachable allocated idle⟩

end GradualMap
