import GradualMap.Proofs.Accord
import GradualMap.Proofs.Call
import GradualMap.Proofs.Linkage

/-!
Operations go through with one scheme as with another that is in accord with it, and along the way
do to the buckets of their table what is allowed and nothing else. Both are said of a run at once,
whatever comes of it, so that the operations are gone through once.
-/

namespace GradualMap

open GradualMap.Action

variable {K V δ ρ α : Type} {scheme scheme' : KeyScheme K δ} {calm : KeyEnv δ → Prop}

namespace Table

/-- No step in the life of the buckets of a table ends what is said of it. -/
def Enduring (along : Table K V × List Event → Prop) : Prop :=
  ∀ {before after : Table K V × List Event}, Relinks before after → along before → along after

/-- A table and its log as described, in calm surroundings. -/
abbrev Within (along : Table K V × List Event → Prop) (calm : KeyEnv δ → Prop)
    (s : Table K V × Env δ) : Prop :=
  along (s.1, s.2.log) ∧ calm s.2.keys

/-- The same of a table that has a chain `index`. -/
abbrev Having (index : Nat) (along : Table K V × List Event → Prop)
    (s : Table K V × List Event) : Prop :=
  along s ∧ index < s.1.current.size

variable {along : Table K V × List Event → Prop} {index offset : Nat} {table : Table K V}

/-- Slots are written, and nothing is told. -/
theorem Relinks.written {before after : Table K V} {log : List Event}
    (current : before.current.Alike after.current) (former : FormerAlike before after) :
    Relinks (before, log) (after, log) :=
  .wrote [] (by simp) current former

theorem Relinks.aside {before after : Table K V} {log : List Event}
    (current : after.current = before.current) (resize : after.resize = before.resize) :
    Relinks (before, log) (after, log) := by
  refine .written (current ▸ .refl _) ?_
  have same := FormerAlike.refl before
  unfold FormerAlike at *
  rwa [resize]

theorem twin_read : Twin (Within along calm) (read : TableAction K V δ (Table K V)) read :=
  fun _ h => ⟨rfl, h⟩

theorem matches_modify {before : Table K V × List Event → Prop} {f : Table K V → Table K V}
    (keeps : ∀ table log, before (table, log) → along (f table, log)) :
    Matches (Within before calm) (Within along calm) (modify f : TableAction K V δ Unit)
      (modify f) :=
  fun s h => ⟨rfl, keeps s.1 s.2.log h.1, h.2⟩

theorem twin_onKeys {act act' : Action (KeyEnv δ) α} (twin : Twin calm act act') :
    Twin (Within along calm) (onKeys act : TableAction K V δ α) (onKeys act') := by
  intro s h
  obtain ⟨same, after⟩ := twin s.2.keys h.2
  refine ⟨?_, h.1, after⟩
  simp only [onKeys, Action.second, Env.onKeys, same]

/-- An array that was allocated has no overflow buckets. -/
theorem allocate_bare (exponent : Nat) (s : Table K V × Env δ) :
    Ends (.second (Env.allocate exponent) : TableAction K V δ (BucketArray K V)) s
      (fun fresh s' => s' = s ∧ fresh.Bare ∧ fresh.vacant = 0) fun _ s' => s' = s := by
  rw [ends_second]
  unfold Env.allocate
  split
  · rfl
  · rw [ends_bind, ends_get]
    split
    · exact ⟨rfl, BucketArray.bare_ofExponent exponent, rfl⟩
    · rfl

theorem allocate_bind {exponent : Nat} {f f' : BucketArray K V → TableAction K V δ α}
    (later : ∀ fresh : BucketArray K V, fresh.Bare ∧ fresh.vacant = 0 →
      Twin (Within along calm) (f fresh) (f' fresh)) :
    Twin (Within along calm) (.second (Env.allocate exponent) >>= f)
      (.second (Env.allocate exponent) >>= f') := by
  refine bind_of_ends (fun s h => (allocate_bare exponent s).mono ?_ ?_) later
  · rintro fresh _ ⟨rfl, bare⟩
    exact ⟨h, bare⟩
  · rintro _ _ rfl
    exact h

/-- A chain that was fetched is there. -/
theorem fetch_bind {f f' : Chain K V → TableAction K V δ α}
    (later : ∀ chain, Matches (Within (Having index along) calm) (Within along calm)
      (f chain) (f' chain)) :
    Twin (Within along calm) (do f (← .check ((← read).current.fetch index)))
      (do f' (← .check ((← read).current.fetch index))) := by
  intro s h
  have fetching (g : Chain K V → TableAction K V δ α) :
      (do g (← .check ((← read).current.fetch index)) : TableAction K V δ α) s =
        (check (s.1.current.fetch index) >>= g) s :=
    rfl
  rw [fetching, fetching]
  by_cases bound : index < s.1.current.size
  · rw [BucketArray.fetch_eq bound]
    exact later _ s ⟨⟨h.1, bound⟩, h.2⟩
  · have missing : s.1.current.chains[index]? = none :=
      Array.getElem?_eq_none (Nat.le_of_not_lt bound)
    unfold BucketArray.fetch
    rw [missing]
    exact ⟨rfl, h⟩

section

variable (enduring : Enduring along)
include enduring

theorem twin_modify {f : Table K V → Table K V}
    (step : ∀ table log, Relinks (table, log) (f table, log)) :
    Twin (Within along calm) (modify f : TableAction K V δ Unit) (modify f) :=
  matches_modify fun table log => enduring (step table log)

theorem twin_record {event : Event} (quiet : event.renews = false) :
    Twin (Within along calm) (record event : TableAction K V δ Unit) (record event) := by
  intro s h
  have told : Relinks (s.1, s.2.log) (s.1, [event] ++ s.2.log) :=
    .wrote [event] (fun _ mem => List.mem_singleton.mp mem ▸ quiet) (.refl _) (.refl _)
  exact ⟨rfl, enduring told h.1, h.2⟩

/-- What is told of a table along with the change to it is one step. -/
theorem twin_told {event : Event} {f : Table K V → Table K V}
    (step : ∀ table log, Relinks (table, log) (f table, event :: log)) :
    Twin (Within along calm) (do record event; modify f : TableAction K V δ Unit)
      (do record event; modify f) :=
  fun s h => ⟨rfl, enduring (step s.1 s.2.log) h.1, h.2⟩

theorem twin_setCurrent {slot : Slot K V} :
    Twin (Within along calm) (setCurrent index offset slot : TableAction K V δ Unit)
      (setCurrent index offset slot) :=
  twin_modify enduring fun table _ => .written BucketArray.alike_setSlot (.refl table)

theorem twin_modifyChain {f : Chain K V → Chain K V}
    (same : ∀ chain, (f chain).cells = chain.cells) :
    Twin (Within along calm)
      (modify fun table => { table with current := table.current.modify index f } :
        TableAction K V δ Unit)
      (modify fun table => { table with current := table.current.modify index f }) :=
  twin_modify enduring fun table _ => .written (BucketArray.alike_modify same) (.refl table)

theorem twin_setFormer {slot : Slot K V} :
    Twin (Within along calm) (setFormer index offset slot : TableAction K V δ Unit)
      (setFormer index offset slot) := by
  apply twin_modify enduring
  intro table log
  refine .written (.refl _) ?_
  unfold FormerAlike
  cases table.resize with
  | none => exact .none
  | some resize => exact .some BucketArray.alike_setSlot

theorem twin_updateEntry {pos : Position} {f : Entry K V → Entry K V} :
    Twin (Within along calm) (updateEntry pos f : TableAction K V δ (Entry K V))
      (updateEntry pos f) := by
  refine twin_read.bind fun table => twin_check.bind fun slot => ?_
  cases slot.entry with
  | none => exact twin_abort
  | some entry =>
    obtain ⟨era, index, offset⟩ := pos
    cases era with
    | current => exact (twin_setCurrent enduring).bind fun _ => twin_pure
    | former => exact (twin_setFormer enduring).bind fun _ => twin_pure

theorem twin_countOverflow (accord : scheme.Accord scheme' calm) :
    Twin (Within along calm) (countOverflow : TableAction K V δ Unit) countOverflow := by
  apply twin_read.bind
  intro table
  have counted (counts : Bool) : Twin (Within along calm)
      (if counts then modify fun table : Table K V =>
        { table with overflowCount := min (table.overflowCount + 1) maxOverflowCount }
      else pure () : TableAction K V δ Unit)
      (if counts then modify fun table : Table K V =>
        { table with overflowCount := min (table.overflowCount + 1) maxOverflowCount }
      else pure () : TableAction K V δ Unit) :=
    twin_ite (twin_modify enduring fun _ _ => .aside rfl rfl) twin_pure
  exact twin_ite (twin_pure.bind counted) ((twin_onKeys accord.draws).map.bind counted)

/-- A bucket is linked behind a chain that is there. -/
theorem along_link {f : BucketArray K V → BucketArray K V}
    (alike : ∀ array : BucketArray K V, array.Alike (f array)) (table : Table K V)
    (log : List Event) (having : Having index along (table, log)) :
    along ({ table with current := f (table.current.link index) }, log) :=
  enduring (.linked ((BucketArray.extended_link having.2).alike (alike _)) (.refl table)) having.1

theorem matches_linkOverflow (accord : scheme.Accord scheme' calm) :
    Matches (Within (Having index along) calm) (Within along calm)
      (linkOverflow index : TableAction K V δ Unit) (linkOverflow index) :=
  (matches_modify (along_link enduring fun array => .refl array)).bind (fun _ => id) fun _ =>
    (twin_countOverflow enduring accord).bind fun _ => twin_read.bind fun _ =>
      twin_record enduring rfl

theorem twin_startGrowth :
    Twin (Within along calm) (startGrowth : TableAction K V δ Unit) startGrowth :=
  twin_read.bind fun _ => allocate_bind fun _ ⟨bare, vacant⟩ =>
    twin_told enduring fun _ _ => .started bare vacant rfl rfl

theorem twin_reserve : Twin (Within along calm) (reserve : TableAction K V δ Unit) reserve := by
  apply twin_of_ends
  rintro ⟨table, env⟩ h
  unfold reserve
  simp only [ends_bind, ends_read]
  split
  · exact h
  · rename_i unallocated
    have without : table.current.size = 0 := by
      simpa [BucketArray.isAllocated] using unallocated
    rw [ends_bind]
    apply (allocate_bare table.exponent (table, env)).mono
    · rintro fresh _ ⟨rfl, bare, vacant⟩
      exact ⟨enduring (.reserved without bare vacant (.refl _)) h.1, h.2⟩
    · rintro _ _ rfl
      exact h

theorem twin_place (accord : scheme.Accord scheme' calm) {next : Nat} {slot : Slot K V} :
    Twin (Within along calm) (place index next slot : TableAction K V δ Unit)
      (place index next slot) := by
  apply fetch_bind
  intro chain
  have weaker (s : Table K V × Env δ) (h : Within (Having index along) calm s) :
      Within along calm s :=
    ⟨h.1.1, h.2⟩
  apply matches_ite
  · exact (matches_modify (along_link enduring fun _ => BucketArray.alike_setSlot)).bind
      (fun _ => id) fun _ => twin_countOverflow enduring accord
  · exact (twin_ite twin_abort (twin_setCurrent enduring)).weaken weaker

theorem twin_evacuateSlots (accord : scheme.Accord scheme' calm) {routing : Routing} {old : Nat}
    (row : List (Slot K V)) : ∀ {offset : Nat} {filled : Filled},
      Twin (Within along calm) (evacuateSlots scheme routing old row offset filled)
        (evacuateSlots scheme' routing old row offset filled) := by
  induction row with
  | nil => exact twin_pure
  | cons slot rest ih =>
    intro offset filled
    obtain ⟨tag, entry⟩ := slot
    cases tag with
    | emptyRest => exact (twin_setFormer enduring).bind fun _ => ih
    | emptyOne => exact (twin_setFormer enduring).bind fun _ => ih
    | full top =>
      cases entry with
      | none => exact twin_abort
      | some entry =>
        exact (twin_setFormer enduring).bind fun _ =>
          (twin_onKeys (accord.route routing top entry.key)).bind fun _ =>
            (twin_setFormer enduring).bind fun _ => (twin_place enduring accord).bind fun _ => ih
    | _ => exact twin_abort

theorem twin_advanceCursor :
    Twin (Within along calm) (advanceCursor : TableAction K V δ Unit) advanceCursor := by
  apply twin_read.bind
  intro table
  cases table.resize with
  | none => exact twin_pure
  | some resize =>
    apply twin_ite
    · exact twin_read.bind fun _ => twin_told enduring fun _ _ => .finished rfl rfl
    · apply twin_modify enduring
      intro table log
      refine .written (.refl _) ?_
      unfold FormerAlike
      cases table.resize with
      | none => exact .none
      | some resize => exact .some (.refl _)

theorem twin_evacuate (accord : scheme.Accord scheme' calm) {old : Nat} :
    Twin (Within along calm) (evacuate scheme old : TableAction K V δ Unit)
      (evacuate scheme' old) := by
  apply twin_read.bind
  intro table
  obtain ⟨count, exponent, overflowCount, seed, current, resize⟩ := table
  cases resize with
  | none => exact twin_pure
  | some resize =>
    have ended : Twin (Within along calm)
        (if old = resize.cursor then advanceCursor else pure () : TableAction K V δ Unit)
        (if old = resize.cursor then advanceCursor else pure ()) :=
      twin_ite (twin_advanceCursor enduring) twin_pure
    exact twin_check.bind fun chain => twin_ite ended
      ((twin_evacuateSlots enduring accord _).bind fun _ => ended)

theorem twin_evacuateNext (accord : scheme.Accord scheme' calm) :
    Twin (Within along calm) (evacuateNext scheme : TableAction K V δ Unit)
      (evacuateNext scheme') := by
  apply twin_read.bind
  intro table
  cases table.resize with
  | none => exact twin_pure
  | some resize => exact twin_evacuate enduring accord

theorem twin_growWork (accord : scheme.Accord scheme' calm) :
    Twin (Within along calm) (growWork scheme index : TableAction K V δ Unit)
      (growWork scheme' index) := by
  apply twin_read.bind
  intro table
  cases table.resize with
  | none => exact twin_pure
  | some resize =>
    exact twin_check.bind fun _ => (twin_evacuate enduring accord).bind fun _ =>
      twin_evacuateNext enduring accord

theorem twin_finishGrowth (accord : scheme.Accord scheme' calm) :
    Twin (Within along calm) (finishGrowth scheme : TableAction K V δ Unit)
      (finishGrowth scheme') := by
  have within (steps : Nat) : Twin (Within along calm)
      (finishGrowthWithin scheme steps : TableAction K V δ Unit)
      (finishGrowthWithin scheme' steps) := by
    induction steps with
    | zero => exact twin_pure
    | succ steps ih =>
      exact twin_read.bind fun _ =>
        twin_ite ((twin_evacuateNext enduring accord).bind fun _ => ih) twin_pure
  apply twin_read.bind
  intro table
  cases table.resize with
  | none => exact twin_pure
  | some resize => exact within _

theorem twin_claimWithin (accord : scheme.Accord scheme' calm) {key : K} {hash : UInt64}
    (rounds : Nat) : Twin (Within along calm)
      (claimWithin scheme key hash rounds : TableAction K V δ Claim)
      (claimWithin scheme' key hash rounds) := by
  induction rounds with
  | zero => exact twin_abort
  | succ rounds ih =>
    refine twin_read.bind fun table => (twin_growWork enduring accord).bind fun _ =>
      fetch_bind fun chain => ?_
    have weaker (s : Table K V × Env δ)
        (h : Within (Having (bucketIndex hash table.exponent) along) calm s) :
        Within along calm s :=
      ⟨h.1.1, h.2⟩
    apply Matches.bind (twin_onKeys (accord.probe key _ chain.slots)) weaker
    intro answer
    cases answer with
    | found offset => exact twin_pure.weaken weaker
    | missing free =>
      apply Matches.bind twin_read weaker
      intro table
      apply matches_ite
      · exact ((twin_startGrowth enduring).bind fun _ => ih).weaken weaker
      · cases free with
        | some offset => exact twin_pure.weaken weaker
        | none =>
          exact (matches_linkOverflow enduring accord).bind (fun _ => id) fun _ => twin_pure

theorem twin_claim (accord : scheme.Accord scheme' calm) {key : K} {hash : UInt64} :
    Twin (Within along calm) (claim scheme key hash : TableAction K V δ Claim)
      (claim scheme' key hash) :=
  (twin_reserve enduring).bind fun _ => twin_claimWithin enduring accord _

theorem twin_fill {hash : UInt64} {entry : Entry K V} :
    Twin (Within along calm) (fill index offset hash entry : TableAction K V δ Unit)
      (fill index offset hash entry) :=
  (twin_setCurrent enduring).bind fun _ => twin_modify enduring fun _ _ => .aside rfl rfl

theorem twin_countDown :
    Twin (Within along calm) (countDown : TableAction K V δ Unit) countDown := by
  have down : Twin (Within along calm)
      (modify fun table => { table with count := table.count - 1 } : TableAction K V δ Unit)
      (modify fun table => { table with count := table.count - 1 }) :=
    twin_modify enduring fun _ _ => .aside rfl rfl
  exact twin_read.bind fun _ => twin_ite (twin_abort.bind fun _ => down) down

theorem twin_reseed (accord : scheme.Accord scheme' calm) :
    Twin (Within along calm) (reseed : TableAction K V δ Unit) reseed :=
  (twin_onKeys accord.draws).bind fun _ => twin_modify enduring fun _ _ => .aside rfl rfl

theorem twin_delete (accord : scheme.Accord scheme' calm) {key : K} {hash : UInt64} :
    Twin (Within along calm) (delete scheme key hash : TableAction K V δ (Option (K × V)))
      (delete scheme' key hash) := by
  apply twin_read.bind
  intro table
  refine twin_ite twin_pure ((twin_growWork enduring accord).bind fun _ => twin_read.bind fun _ =>
    twin_check.bind fun chain => (twin_onKeys (accord.probe key _ chain.slots)).bind
      fun answer => ?_)
  cases answer with
  | missing free => exact twin_pure
  | found offset =>
    have settles (chain : Chain K V) : (chain.settleAt offset).cells = chain.cells := by
      unfold Chain.settleAt
      split
      · rfl
      · rfl
    refine twin_read.bind fun _ => twin_check.bind fun entry => (twin_setCurrent enduring).bind
      fun _ => (twin_modifyChain enduring settles).bind fun _ => (twin_countDown enduring).bind
        fun _ => twin_read.bind fun _ => ?_
    refine twin_ite ((twin_reseed enduring accord).bind fun _ => ?_) twin_pure
    exact (twin_record enduring rfl).bind fun _ => twin_pure

/-- Nothing of the old chains is left before the event tells so. -/
theorem twin_clear (accord : scheme.Accord scheme' calm) :
    Twin (Within along calm) (clear : TableAction K V δ Unit) clear := by
  apply twin_of_ends
  intro s h
  unfold clear
  rw [ends_bind, ends_read]
  split
  · exact h
  · unfold reseed
    rw [ends_bind, ends_modify, ends_bind, ends_bind, ends_onKeys]
    refine ((KeyEnv.draw_yields _).also (accord.draws.ends h.2)).ends ?_
    rintro seed keys ⟨_, quiet⟩
    rw [ends_modify, ends_bind, ends_read]
    exact ⟨enduring (.cleared BucketArray.bare_reset rfl) h.1, quiet⟩

theorem twin_retainSlots {f : K → V → StateM ρ (V × Except String Bool)} (row : List (Slot K V)) :
    ∀ {offset : Nat}, Twin (fun s : (Table K V × Env δ) × ρ => Within along calm s.1)
      (retainSlots f index row offset) (retainSlots f index row offset) := by
  induction row with
  | nil => exact twin_pure
  | cons slot rest ih =>
    intro offset
    unfold retainSlots
    cases slot.live? with
    | none => exact twin_pure.bind fun _ => ih
    | some item =>
      apply twin_second.bind
      rintro ⟨value, verdict⟩
      refine (twin_setCurrent enduring).first.bind fun _ => ?_
      cases verdict with
      | error text => exact twin_abort.bind fun _ => ih
      | ok keep =>
        cases keep with
        | true => exact twin_pure.bind fun _ => ih
        | false =>
          exact (twin_setCurrent enduring).first.bind fun _ =>
            (twin_countDown enduring).first.bind fun _ => ih

theorem twin_retain (accord : scheme.Accord scheme' calm)
    {f : K → V → StateM ρ (V × Except String Bool)} :
    Twin (fun s : (Table K V × Env δ) × ρ => Within along calm s.1) (retain scheme f)
      (retain scheme' f) := by
  have settled (index : Nat) : Twin (Within along calm)
      (modify fun table => { table with current := table.current.modify index Chain.settleEnd } :
        TableAction K V δ Unit) _ :=
    twin_modifyChain enduring fun _ => rfl
  have chains (index : Nat) : Twin (fun s : (Table K V × Env δ) × ρ => Within along calm s.1)
      (retainChain f index) (retainChain f index) :=
    twin_read.first.bind fun _ => twin_check.bind fun chain =>
      (twin_retainSlots enduring _).bind fun _ => (settled index).first
  refine twin_read.first.bind fun table => twin_ite twin_pure
    ((twin_finishGrowth enduring accord).first.bind fun _ => twin_read.first.bind fun table =>
      (Twin.forM chains _).bind fun _ => twin_read.first.bind fun table => ?_)
  exact twin_ite (twin_reseed enduring accord).first twin_pure

end

end Table

namespace Map

/-- A map with a table as described, in calm surroundings. -/
abbrev Within (along : Table K V × List Event → Prop) (calm : KeyEnv δ → Prop)
    (s : Map K V × Env δ) : Prop :=
  Table.Within along calm (s.1.table, s.2)

variable {along : Table K V × List Event → Prop} {map : Map K V}

theorem twin_read : Twin (Within along calm) (read : MapAction K V δ (Map K V)) read :=
  fun _ h => ⟨rfl, h⟩

theorem twin_onTable {act act' : TableAction K V δ α}
    (twin : Twin (Table.Within along calm) act act') :
    Twin (Within along calm) (onTable act) (onTable act') := by
  intro s h
  obtain ⟨same, after⟩ := twin _ h
  exact ⟨by simp only [onTable, same], after⟩

theorem twin_onKeys {act act' : Action (KeyEnv δ) α} (twin : Twin calm act act') :
    Twin (Within along calm) (onKeys act : MapAction K V δ α) (onKeys act') := by
  intro s h
  obtain ⟨same, after⟩ := twin s.2.keys h.2
  refine ⟨?_, h.1, after⟩
  simp only [onKeys, Action.second, Env.onKeys, same]

theorem twin_acquire : Twin (Within along calm) (acquire : MapAction K V δ Unit) acquire :=
  twin_read.bind fun _ => twin_check.bind fun _ => fun _ h => ⟨rfl, h⟩

theorem twin_writing {act act' : MapAction K V δ α} (twin : Twin (Within along calm) act act') :
    Twin (Within along calm) (writing act) (writing act') :=
  twin_acquire.bind fun _ => twin.ensuring fun _ h => h

theorem twin_writingWith {act act' : Action ((Map K V × Env δ) × ρ) α}
    (twin : Twin (fun s : (Map K V × Env δ) × ρ => Within along calm s.1) act act') :
    Twin (fun s : (Map K V × Env δ) × ρ => Within along calm s.1) (writingWith act)
      (writingWith act') :=
  twin_acquire.first.bind fun _ => twin.ensuring fun _ h => h

section

variable (enduring : Table.Enduring along) (accord : scheme.Accord scheme' calm)
include enduring accord

omit enduring in
theorem overwrite_eq (key : K) (f : V → V) (entry : Entry K V) :
    overwrite scheme key f entry = overwrite scheme' key f entry := by
  unfold overwrite
  rw [accord.traits]

theorem twin_insert? {key : K} {value : V} :
    Twin (Within along calm) (insert? scheme key value) (insert? scheme' key value) := by
  refine twin_read.bind fun map => (twin_onKeys (accord.hashKey key _)).bind fun hash =>
    twin_writing (twin_onTable ((Table.twin_claim enduring accord).bind fun claim => ?_))
  cases claim with
  | occupied pos =>
    rw [funext (overwrite_eq accord key fun _ => value)]
    exact (Table.twin_updateEntry enduring).bind fun _ => twin_pure
  | vacant index offset => exact (Table.twin_fill enduring).bind fun _ => twin_pure

theorem twin_getOrInsert? {key : K} {default : StateM ρ (Except String V)} {f : V → V} :
    Twin (fun s : (Map K V × Env δ) × ρ => Within along calm s.1)
      (getOrInsert? scheme key default f) (getOrInsert? scheme' key default f) := by
  refine twin_read.first.bind fun map => (twin_onKeys (accord.hashKey key _)).first.bind fun hash =>
    twin_writingWith ((twin_onTable (Table.twin_claim enduring accord)).first.bind fun claim => ?_)
  cases claim with
  | occupied pos =>
    rw [funext (overwrite_eq accord key f)]
    exact (twin_onTable (Table.twin_updateEntry enduring)).first.bind fun _ => twin_pure
  | vacant index offset =>
    apply twin_second.bind
    intro answer
    cases answer with
    | error text => exact twin_abort
    | ok value => exact (twin_onTable (Table.twin_fill enduring)).first.bind fun _ => twin_pure

theorem twin_adjust {key : K} {f : V → V} :
    Twin (Within along calm) (adjust scheme key f) (adjust scheme' key f) := by
  refine twin_read.bind fun map => (twin_onKeys (accord.position? map key).orAbort).bind
    fun found => ?_
  cases found with
  | none => exact twin_pure
  | some pos => exact (twin_onTable (Table.twin_updateEntry enduring)).bind fun _ => twin_pure

theorem twin_removePair? {key : K} :
    Twin (Within along calm) (removePair? scheme key : MapAction K V δ (Option (K × V)))
      (removePair? scheme' key) := by
  apply twin_read.bind
  intro map
  apply twin_ite
  · exact (twin_onKeys (accord.probeEmpty key)).bind fun _ => twin_pure
  · exact twin_read.bind fun _ => (twin_onKeys (accord.hashKey key _)).bind fun _ =>
      twin_writing (twin_onTable (Table.twin_delete enduring accord))

theorem twin_clear : Twin (Within along calm) (clear : MapAction K V δ Unit) clear :=
  twin_writing (twin_onTable (Table.twin_clear enduring accord))

theorem twin_retain {f : K → V → StateM ρ (V × Except String Bool)} :
    Twin (fun s : (Map K V × Env δ) × ρ => Within along calm s.1) (retain scheme f)
      (retain scheme' f) := by
  apply twin_writingWith
  intro s h
  obtain ⟨same, after⟩ := Table.twin_retain (f := f) enduring accord ((s.1.1.table, s.1.2), s.2) h
  exact ⟨by simp only [same], after⟩

theorem twin_extend {pairs : List (K × V)} :
    Twin (Within along calm) (extend scheme pairs) (extend scheme' pairs) :=
  .forM (fun _ => (twin_insert? enduring accord).orAbort.discard) pairs

end

end Map

namespace Sweep

variable {along : Table K V × List Event → Prop} (enduring : Table.Enduring along)
include enduring

theorem twin_ofMap (accord : scheme.Accord scheme' calm) :
    Twin (Map.Within along calm) (ofMap scheme) (ofMap scheme') :=
  (Map.twin_writing (Map.twin_onTable (Table.twin_finishGrowth enduring accord))).bind fun _ =>
    Map.twin_read.bind fun _ => (Map.twin_onKeys (accord.startDraw _)).bind fun _ =>
      Map.twin_read.bind fun _ => twin_pure

theorem twin_next {f : V → V} {sweep : Sweep} :
    Twin (Map.Within along calm) (sweep.next f : MapAction K V δ _) (sweep.next f) := by
  refine twin_ite twin_pure (Map.twin_read.bind fun map => ?_)
  rcases locate map.table sweep.buckets sweep.pending with ⟨_ | pos, buckets, pending⟩
  · exact twin_pure
  · exact (Map.twin_onTable (Table.twin_updateEntry enduring)).bind fun _ => twin_pure

theorem twin_through (writes : List (V → V)) : ∀ {sweep : Sweep},
    Twin (Map.Within along calm) (through writes sweep : MapAction K V δ _)
      (through writes sweep) := by
  induction writes with
  | nil => exact twin_pure
  | cons f writes ih =>
    intro sweep
    apply (twin_next enduring).bind
    rintro ⟨found, sweep⟩
    cases found with
    | none => exact twin_pure
    | some pair => exact ih.bind fun _ => twin_pure

end Sweep

namespace Call

variable {along : Table K V × List Event → Prop} (enduring : Table.Enduring along)
  (accord : scheme.Accord scheme' calm)
include enduring accord

omit enduring accord in
theorem twin_reading {act act' : Map K V → Action (KeyEnv δ) α} {answer : α → Answer K V}
    (twin : ∀ map, Twin calm (act map) (act' map)) :
    Twin (fun s : (Map K V × Env δ) × ρ => Map.Within along calm s.1)
      (first do return answer (← Map.onKeys (act (← Map.read))))
      (first do return answer (← Map.onKeys (act' (← Map.read)))) :=
  (Map.twin_read.bind fun map => (Map.twin_onKeys (twin map)).bind fun _ => twin_pure).first

/-- Every call is the same call with both schemes. -/
theorem twin_attempt (call : Call K V ρ) :
    Twin (fun s : (Map K V × Env δ) × ρ => Map.Within along calm s.1) (call.attempt scheme)
      (call.attempt scheme') := by
  cases call with
  | insert key value => exact (Map.twin_insert? enduring accord).first.map
  | getOrInsert key default f => exact (Map.twin_getOrInsert? enduring accord).map
  | get key => exact twin_reading fun map => accord.get? map key
  | getPair key => exact twin_reading fun map => accord.getPair? map key
  | contains key => exact twin_reading fun map => accord.contains? map key
  | adjust key f => exact (Map.twin_adjust enduring accord).first.map
  | remove key =>
    exact ((Map.twin_removePair? enduring accord).bind fun _ => twin_pure).first.map
  | removePair key => exact (Map.twin_removePair? enduring accord).first.map
  | extend pairs => exact (Map.twin_extend enduring accord).first.map
  | clear => exact (Map.twin_clear enduring accord).first.map
  | retain f => exact (Map.twin_retain enduring accord).map
  | sweep writes =>
    exact ((Sweep.twin_ofMap enduring accord).bind fun _ =>
      (Sweep.twin_through enduring writes).bind fun _ => twin_pure).first
  | list => exact twin_reading fun map => accord.toList map
  | len => exact fun _ h => ⟨rfl, h⟩

end Call

end GradualMap
