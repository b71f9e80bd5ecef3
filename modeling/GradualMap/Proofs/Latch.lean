import GradualMap.Proofs.Cursor
import GradualMap.Proofs.Fault

/-!
The write latch. Whatever is asked of a map and whatever comes of it, the latch is held afterwards
if and only if it was held before. While it is held the map stands still, and every write, every
look-up and every step of a walk or a cursor that would have something to do is stopped.
-/

namespace GradualMap

open GradualMap.Action

variable {K V δ ρ α : Type}

namespace Action

variable {σ β : Type} {act : Action σ α} {s after : σ} {cause : Abort}

/-- The operation is stopped for this reason and leaves the state behind so. -/
def Halts (act : Action σ α) (s : σ) (cause : Abort) (after : σ) : Prop :=
  act.Ends s (fun _ _ => False) fun failure s => failure = .abort cause ∧ s = after

theorem Halts.run (halts : act.Halts s cause after) : act s = (.error (.abort cause), after) := by
  unfold Halts Ends at halts
  generalize act s = run at *
  obtain ⟨failure | _, left⟩ := run
  · obtain ⟨rfl, rfl⟩ := halts
    rfl
  · exact halts.elim

theorem Halts.bind {f : α → Action σ β} (halts : act.Halts s cause after) :
    Halts (act >>= f) s cause after :=
  ends_bind.mpr (halts.mono (fun _ _ absurd => absurd.elim) fun _ _ stopped => stopped)

theorem Halts.map {f : α → β} (halts : act.Halts s cause after) :
    Halts (f <$> act) s cause after :=
  ends_map.mpr halts

theorem Halts.orAbort (halts : act.Halts s cause after) : act.orAbort.Halts s cause after := by
  refine ends_orAbort.mpr (halts.mono (fun _ _ => id) ?_)
  rintro failure s ⟨rfl, same⟩
  exact ⟨rfl, same⟩

end Action

variable {scheme : KeyScheme K δ} {map : Map K V} {env : Env δ} {own : ρ} {key : K}
  {keys : KeyEnv δ}

theorem Latch.check_of_held {latch : Latch} (held : latch.held = true) (cause : Abort) :
    latch.check cause = .error cause := by
  rw [check, if_pos held]

theorem Action.halts_check {σ : Type} {latch : Latch} (held : latch.held = true) (cause : Abort)
    (s : σ) : Halts (check (latch.check cause)) s cause s := by
  rw [Latch.check_of_held held]
  exact ⟨rfl, rfl⟩

namespace Map

/-- What stands still of a map: all of it while the latch is held, and otherwise nothing but that
the latch is free. -/
def frozen (map : Map K V) : Option (Map K V) :=
  if map.latch.held then some map else none

theorem frozen_of_held (held : map.latch.held = true) : map.frozen = some map :=
  if_pos held

theorem frozen_of_free (free : map.latch.held = false) : map.frozen = none :=
  if_neg (Bool.eq_false_iff.mp free)

/-- A view that stands still says as much about the latch and the map. -/
theorem eq_of_frozen {after : Map K V} (same : after.frozen = map.frozen) :
    after.latch = map.latch ∧ (map.latch.held = true → after = map) := by
  by_cases held : map.latch.held = true
  · rw [frozen_of_held held] at same
    by_cases held' : after.latch.held = true
    · rw [frozen_of_held held'] at same
      cases same
      exact ⟨rfl, fun _ => rfl⟩
    · rw [frozen_of_free (Bool.eq_false_iff.mpr held')] at same
      cases same
  · by_cases held' : after.latch.held = true
    · rw [frozen_of_held held', frozen_of_free (Bool.eq_false_iff.mpr held)] at same
      cases same
    · obtain ⟨table, ⟨latch⟩, id⟩ := map
      obtain ⟨table', ⟨latch'⟩, id'⟩ := after
      simp only [Bool.not_eq_true] at held held'
      subst held held'
      exact ⟨rfl, fun held => by cases held⟩

/-- The frozen part of a map that is worked on. -/
abbrev stands (s : Map K V × Env δ) : Option (Map K V) :=
  s.1.frozen

/-- An operation that does nothing to a held map, and never touches the latch of a free one. -/
theorem leaves_stands_of_latch {σ : Type} {act : Action σ α} (view : σ → Map K V)
    (held : ∀ s, (view s).latch.held = true → view (act s).2 = view s)
    (free : ∀ s, (view s).latch.held = false → (view (act s).2).latch.held = false) :
    act.Leaves fun s => (view s).frozen := by
  intro s
  by_cases latched : (view s).latch.held = true
  · exact congrArg frozen (held s latched)
  · have before := Bool.eq_false_iff.mpr latched
    exact (frozen_of_free (free s before)).trans (frozen_of_free before).symm

theorem read_stands : Leaves stands (read : MapAction K V δ (Map K V)) :=
  fun _ => rfl

theorem onKeys_stands {act : Action (KeyEnv δ) α} :
    Leaves stands (onKeys act : MapAction K V δ α) :=
  fun _ => rfl

theorem acquire_halts (held : map.latch.held = true) :
    (acquire : MapAction K V δ Unit).Halts (map, env) .concurrentWrites (map, env) := by
  unfold acquire Halts
  rw [ends_bind, ends_read, ends_bind, Latch.acquire, if_pos held]
  exact ⟨rfl, rfl⟩

theorem writing_halts (held : map.latch.held = true) (act : MapAction K V δ α) :
    (writing act).Halts (map, env) .concurrentWrites (map, env) :=
  (acquire_halts held).bind

theorem writingWith_halts (held : map.latch.held = true)
    (act : Action ((Map K V × Env δ) × ρ) α) :
    (writingWith act).Halts ((map, env), own) .concurrentWrites ((map, env), own) := by
  apply Halts.bind
  refine ends_first.mpr ((acquire_halts held).mono (fun _ _ absurd => absurd) ?_)
  rintro failure s ⟨stopped, rfl⟩
  exact ⟨stopped, rfl⟩

/-- A write begins by taking the latch, and lets it go however it ends. -/
theorem writing_stands {act : MapAction K V δ α} : Leaves stands (writing act) := by
  apply leaves_stands_of_latch Prod.fst
  · rintro ⟨map, env⟩ held
    rw [(writing_halts held act).run]
  · rintro ⟨map, env⟩ free
    have released : Ends (writing act) (map, env) (fun _ s => s.1.latch.held = false)
        fun _ s => s.1.latch.held = false :=
      (ends_writing free).mpr (ends_run.mono (fun _ _ _ => rfl) fun _ _ _ => rfl)
    exact ends_state.mp released

theorem writingWith_stands {act : Action ((Map K V × Env δ) × ρ) α} :
    Leaves (fun s : (Map K V × Env δ) × ρ => stands s.1) (writingWith act) := by
  apply leaves_stands_of_latch fun s : (Map K V × Env δ) × ρ => s.1.1
  · rintro ⟨⟨map, env⟩, own⟩ held
    rw [(writingWith_halts held act).run]
  · rintro ⟨⟨map, env⟩, own⟩ free
    have released : Ends (writingWith act) ((map, env), own)
        (fun _ s => s.1.1.latch.held = false) fun _ s => s.1.1.latch.held = false :=
      (ends_writingWith free).mpr (ends_run.mono (fun _ _ _ => rfl) fun _ _ _ => rfl)
    exact ends_state.mp released

theorem insert?_stands {value : V} :
    Leaves stands (insert? scheme key value : MapAction K V δ (Option V)) :=
  read_stands.bind fun _ => onKeys_stands.bind fun _ => writing_stands

theorem getOrInsert?_stands {default : StateM ρ (Except String V)} {f : V → V} :
    Leaves (fun s : (Map K V × Env δ) × ρ => stands s.1) (getOrInsert? scheme key default f) :=
  read_stands.first.bind fun _ => onKeys_stands.first.bind fun _ => writingWith_stands

theorem removePair?_stands :
    Leaves stands (removePair? scheme key : MapAction K V δ (Option (K × V))) := by
  unfold removePair?
  apply read_stands.bind
  intro map
  split
  · exact onKeys_stands.bind fun _ => leaves_pure
  · exact read_stands.bind fun _ => onKeys_stands.bind fun _ => writing_stands

/-- A look-up is stopped before it hashes its key, if the map has entries. -/
theorem position?_halts (held : map.latch.held = true) (filled : map.isEmpty = false) :
    (map.position? scheme key).Halts keys .readDuringWrite keys := by
  unfold position?
  simp only [filled, Bool.false_eq_true, if_false]
  exact (halts_check held _ _).bind

/-- In an empty map it finds nothing. -/
theorem position?_of_isEmpty (empty : map.isEmpty = true) :
    Ends (map.position? scheme key) keys (fun found _ => found = none) fun _ _ => True := by
  unfold position?
  simp only [empty, if_true]
  exact ends_bind.mpr (ends_run.mono (fun _ _ _ => rfl) fun _ _ _ => trivial)

theorem adjust_shut (held : map.latch.held = true) (filled : map.isEmpty = false) (f : V → V) :
    (adjust scheme key f).Halts (map, env) .readDuringWrite (map, env) := by
  unfold adjust Halts
  rw [ends_bind, ends_read, ends_bind, ends_onKeys, ends_orAbort]
  refine (position?_halts held filled).mono (fun _ _ absurd => absurd.elim) ?_
  rintro failure keys ⟨rfl, rfl⟩
  exact ⟨rfl, rfl⟩

/-- A value is changed in place without the latch; the look-up before it is what checks it. -/
theorem adjust_stands {f : V → V} :
    Leaves stands (adjust scheme key f : MapAction K V δ (Option V)) := by
  apply leaves_stands_of_latch Prod.fst
  · rintro ⟨map, env⟩ held
    cases empty : map.isEmpty with
    | false => rw [(adjust_shut held empty f).run]
    | true =>
      have still : Ends (adjust scheme key f) (map, env) (fun _ s => s.1 = map)
          fun _ s => s.1 = map := by
        unfold adjust
        rw [ends_bind, ends_read, ends_bind, ends_onKeys, ends_orAbort]
        refine (position?_of_isEmpty empty).mono ?_ fun _ _ _ => rfl
        rintro _ keys rfl
        exact rfl
      exact ends_state.mp still
  · have kept : Leaves (fun s : Map K V × Env δ => s.1.latch.held)
        (adjust scheme key f : MapAction K V δ (Option V)) := by
      refine Leaves.bind (fun _ => rfl) fun map => Leaves.bind (fun _ => rfl) fun found => ?_
      cases found with
      | none => exact leaves_pure
      | some pos => exact Leaves.bind (fun _ => rfl) fun _ => leaves_pure
    exact fun s free => (kept s).trans free

end Map

/-- Nothing changes when a slot is written with what it holds. -/
theorem BucketArray.setSlot_self {array : BucketArray K V} {chain : Chain K V}
    {index offset : Nat} {slot : Slot K V} (fetched : array.fetch index = .ok chain)
    (holds : chain.slots[offset]? = some slot) : array.setSlot index offset slot = array := by
  obtain ⟨bound, rfl⟩ := Table.fetch_eq_ok.mp fetched
  have same : (array.chainAt index).set offset slot = array.chainAt index := by
    obtain ⟨inside, rfl⟩ := List.getElem?_eq_some_iff.mp holds
    unfold Chain.set
    simp only [List.set_getElem_self]
  unfold setSlot modify
  obtain ⟨chains, vacant, linked⟩ := array
  congr
  apply Array.ext_getElem?
  intro i
  rw [Array.getElem?_modify]
  split
  · rename_i here
    subst here
    rw [getElem?_chains bound, Option.map_some, same]
  · rfl

/-- Nor when an entry is exchanged for itself. -/
theorem Table.updateEntry_idle (pos : Position) :
    Leaves (fun s : Table K V × Env δ => s.1) (updateEntry pos fun entry => entry) := by
  rintro ⟨table, env⟩
  have still : Ends (updateEntry pos fun entry => entry) (table, env) (fun _ s => s.1 = table)
      fun _ s => s.1 = table := by
    unfold updateEntry
    rw [ends_bind, ends_read]
    cases read : table.slotAt pos with
    | error => exact rfl
    | ok slot =>
      obtain ⟨tag, entry⟩ := slot
      rw [ends_bind, ends_check_ok rfl]
      cases entry with
      | none => exact rfl
      | some entry =>
        obtain ⟨chain, fetched, holds⟩ := slotAt_eq_ok.mp read
        obtain ⟨era, index, offset⟩ := pos
        cases era with
        | current =>
          have same := BucketArray.setSlot_self fetched holds
          exact congrArg (fun current => { table with current }) same
        | former =>
          cases growing : table.resize with
          | none =>
            simp only [Table.chain, array, growing] at fetched
            cases fetched
          | some resize =>
            simp only [Table.chain, array, growing] at fetched
            have same := BucketArray.setSlot_self fetched holds
            simp only
            rw [ends_bind, ends_setFormer growing, same]
            exact congrArg (fun resize => { table with resize }) growing.symm
  exact ends_state.mp still

namespace Sweep

theorem ofMap_stands : Leaves Map.stands (ofMap scheme : MapAction K V δ Sweep) :=
  Map.writing_stands.bind fun _ => Map.read_stands.bind fun _ => Map.onKeys_stands.bind fun _ =>
    Map.read_stands.bind fun _ => leaves_pure

/-- A step of a writing walk does not look at the latch: its map is lent to it alone. -/
theorem next_latch {f : V → V} {sweep : Sweep} : Leaves (fun s : Map K V × Env δ => s.1.latch)
    (sweep.next f : MapAction K V δ (Option (K × V) × Sweep)) := by
  unfold next
  split
  · exact leaves_pure
  · refine Leaves.bind (fun _ => rfl) fun map => ?_
    split
    · exact leaves_pure
    · exact Leaves.bind (fun _ => rfl) fun _ => leaves_pure

/-- If nothing is written at a step, the map is as it was. -/
theorem next_idle {sweep : Sweep} : Leaves (fun s : Map K V × Env δ => s.1)
    (sweep.next id : MapAction K V δ (Option (K × V) × Sweep)) := by
  unfold next
  split
  · exact leaves_pure
  · refine Leaves.bind (fun _ => rfl) fun map => ?_
    split
    · exact leaves_pure
    · refine Leaves.bind (fun s => ?_) fun _ => leaves_pure
      exact congrArg (fun table => { s.1 with table })
        (Table.updateEntry_idle _ (s.1.table, s.2))

theorem through_latch (writes : List (V → V)) : ∀ {sweep : Sweep},
    Leaves (fun s : Map K V × Env δ => s.1.latch)
      (through writes sweep : MapAction K V δ (List (K × V) × Sweep)) := by
  induction writes with
  | nil => exact leaves_pure
  | cons f writes ih =>
    intro sweep
    apply next_latch.bind
    rintro ⟨_ | pair, sweep⟩
    · exact leaves_pure
    · exact ih.bind fun _ => leaves_pure

/-- A writing walk starts with a write, which a held latch stops. -/
theorem sweep_halts {β : Type} (held : map.latch.held = true) (later : Sweep → MapAction K V δ β) :
    (ofMap scheme >>= later).Halts (map, env) .concurrentWrites (map, env) :=
  (Map.writing_halts held _).bind.bind

theorem sweep_stands {β : Type} {later : Sweep → MapAction K V δ β}
    (kept : ∀ sweep, (later sweep).Leaves fun s => s.1.latch) :
    Leaves Map.stands (ofMap scheme >>= later : MapAction K V δ β) := by
  apply Map.leaves_stands_of_latch Prod.fst
  · rintro ⟨map, env⟩ held
    rw [(sweep_halts held later).run]
  · rintro ⟨map, env⟩ free
    have first : (ofMap scheme (map, env)).2.1.latch = map.latch :=
      (Map.eq_of_frozen (ofMap_stands (map, env))).1
    rw [bind_apply]
    generalize ofMap scheme (map, env) = run at *
    obtain ⟨_ | sweep, after⟩ := run
    · exact (congrArg Latch.held first).trans free
    · exact (congrArg Latch.held ((kept sweep after).trans first)).trans free

end Sweep

namespace Request

/-- What was asked, by a caller that handles faults or by one that is stopped by them. -/
def ask (scheme : KeyScheme K δ) (handles : Bool) (request : Request K V ρ) :
    Action ((Map K V × Env δ) × ρ) (Answer K V) :=
  if handles then request.attempt scheme else (request.attempt scheme).orAbort

theorem call_stands (call : Call K V ρ) :
    Leaves (fun s : (Map K V × Env δ) × ρ => Map.stands s.1) (call.attempt scheme) := by
  have reads {β : Type} {act : Map K V → Action (KeyEnv δ) β} {answer : β → Answer K V} :
      Leaves (fun s : (Map K V × Env δ) × ρ => Map.stands s.1)
        (first do return answer (← Map.onKeys (act (← Map.read)))) :=
    (Map.read_stands.bind fun _ => Map.onKeys_stands.bind fun _ => leaves_pure).first
  cases call with
  | insert => exact Map.insert?_stands.first.map
  | getOrInsert => exact Map.getOrInsert?_stands.map
  | get | getPair | contains | list => exact reads
  | adjust => exact Map.adjust_stands.first.map
  | remove => exact (Map.removePair?_stands.bind fun _ => leaves_pure).first.map
  | removePair => exact Map.removePair?_stands.first.map
  | extend pairs => exact (Leaves.forM (fun _ => Map.insert?_stands.orAbort.map) pairs).first.map
  | clear => exact Map.writing_stands.first.map
  | retain => exact Map.writingWith_stands.map
  | sweep writes =>
    exact (Sweep.sweep_stands fun _ => (Sweep.through_latch writes).bind fun _ => leaves_pure).first
  | len => exact (Map.read_stands.bind fun _ => leaves_pure).first

theorem attempt_stands (request : Request K V ρ) :
    Leaves (fun s : (Map K V × Env δ) × ρ => Map.stands s.1) (request.attempt scheme) := by
  cases request with
  | plain call => exact call_stands call
  | getOrInsert => exact Map.getOrInsert?_stands.map
  | retain => exact Map.writingWith_stands.map

theorem ask_stands (request : Request K V ρ) (handles : Bool) :
    Leaves (fun s : (Map K V × Env δ) × ρ => Map.stands s.1) (request.ask scheme handles) := by
  cases handles with
  | true => exact request.attempt_stands
  | false => exact request.attempt_stands.orAbort

/-- The key that is stored first. -/
def stores? : Request K V ρ → Option K
  | .plain (.insert key _) | .plain (.getOrInsert key _ _) | .getOrInsert key _ _
  | .plain (.extend ((key, _) :: _)) => some key
  | _ => none

def removes? : Request K V ρ → Option K
  | .plain (.remove key) | .plain (.removePair key) => some key
  | _ => none

/-- A look-up, be it to change the value found. -/
def looksUp : Request K V ρ → Bool
  | .plain (.get _) | .plain (.getPair _) | .plain (.contains _) | .plain (.adjust _ _) => true
  | _ => false

/-- A write to all entries. -/
def overhauls : Request K V ρ → Bool
  | .plain .clear | .plain (.retain _) | .plain (.sweep _) | .retain _ => true
  | _ => false

end Request

section Held

variable (held : map.latch.held = true)
include held

namespace Map

theorem insert?_shut {hash : UInt64} (value : V)
    (hashes : scheme.hashKey key map.table.seed env.keys = (.ok hash, keys)) :
    (insert? scheme key value).Halts (map, env) .concurrentWrites (map, { env with keys }) := by
  unfold insert? Halts
  rw [ends_bind, ends_read, ends_bind, ends_onKeys, ends_of_run_ok hashes]
  exact writing_halts held _

theorem getOrInsert?_shut {hash : UInt64} (default : StateM ρ (Except String V)) (f : V → V)
    (hashes : scheme.hashKey key map.table.seed env.keys = (.ok hash, keys)) :
    (getOrInsert? scheme key default f).Halts ((map, env), own) .concurrentWrites
      ((map, { env with keys }), own) := by
  unfold getOrInsert? Halts
  rw [ends_bind, ends_first, ends_read, ends_bind, ends_first, ends_onKeys, ends_of_run_ok hashes]
  exact writingWith_halts held _

theorem removePair?_shut {hash : UInt64} (filled : map.isEmpty = false)
    (hashes : scheme.hashKey key map.table.seed env.keys = (.ok hash, keys)) :
    (removePair? scheme key).Halts (map, env) .concurrentWrites (map, { env with keys }) := by
  unfold removePair? Halts
  rw [ends_bind, ends_read]
  simp only [filled, Bool.false_eq_true, if_false]
  rw [ends_bind, ends_read, ends_bind, ends_onKeys, ends_of_run_ok hashes]
  exact writing_halts held _

end Map

/-- A walk that has entries to come is stopped at its next step, before it asks for anything. -/
theorem Walk.next_shut {walk : Walk K V} (more : walk.len ≠ 0) :
    (walk.next scheme map).Halts keys .iterationDuringWrite keys := by
  have going : (walk.finished || decide (walk.remaining = 0)) = false := by
    unfold len at more
    cases finished : walk.finished <;> simp_all
  unfold next
  simp only [going, Bool.false_eq_true, if_false]
  exact (halts_check held _ _).bind

/-- So is a walk over all entries at its first step. -/
theorem Map.toList_shut (filled : map.isEmpty = false) :
    ∃ after, (map.toList scheme).Halts keys .iterationDuringWrite after := by
  have starts : Yields (Walk.ofMap map) keys fun walk _ => walk.len = map.table.count := by
    unfold Walk.ofMap Start.draw Yields
    rw [ends_bind, ends_bind]
    exact (KeyEnv.draw_yields keys).ends fun _ _ _ => rfl
  obtain ⟨walk, after, run, left⟩ := yields_iff.mp starts
  have more : walk.len ≠ 0 := by
    rw [left]
    exact of_decide_eq_false filled
  refine ⟨after, ?_⟩
  unfold toList Halts
  rw [ends_bind, ends_of_run_ok run]
  exact (Walk.next_shut held more).bind.bind

theorem Cursor.next_shut {cursor : Cursor K V} (mine : map.id = cursor.mapId)
    (going : cursor.finished = false) :
    (Cursor.next scheme map).Halts (cursor, keys) .iterationDuringWrite (cursor, keys) := by
  unfold next Halts
  rw [ends_bind, ends_read]
  simp only [mine, going, if_true, Bool.false_eq_true, if_false]
  exact (halts_check held _ _).bind

end Held

/-- A step of a cursor on a held map leaves the cursor as it is, whatever map it is from. -/
theorem Cursor.next_still (held : map.latch.held = true) (cursor : Cursor K V) :
    (Cursor.next scheme map (cursor, keys)).2 = (cursor, keys) := by
  by_cases mine : map.id = cursor.mapId
  · cases going : cursor.finished with
    | true => rw [next_of_finished mine going]
    | false => rw [(next_shut held mine going).run]
  · have foreign : Halts (Cursor.next scheme map) (cursor, keys) .foreignCursor (cursor, keys) := by
      unfold next Halts
      rw [ends_bind, ends_read]
      simp only [mine, if_false]
      exact ⟨rfl, rfl⟩
    rw [foreign.run]

/-- The operation was stopped, with this text. -/
def StopsWith (text : String) (result : Except Failure α) : Prop :=
  ∃ cause, result = .error (.abort cause) ∧ cause.message = text

theorem Action.Halts.stops {σ : Type} {act : Action σ α} {s after : σ} {cause : Abort}
    (halts : act.Halts s cause after) : StopsWith cause.message (act s).1 :=
  ⟨cause, congrArg Prod.fst halts.run, rfl⟩

/-- A caller that does not handle faults is stopped alike. -/
theorem Request.ask_stops {request : Request K V ρ} {s after : (Map K V × Env δ) × ρ}
    {cause : Abort} (halts : (request.attempt scheme).Halts s cause after) (handles : Bool) :
    StopsWith cause.message (request.ask scheme handles s).1 := by
  cases handles with
  | true => exact halts.stops
  | false => exact halts.orAbort.stops

/-- What a held latch stops, and with which text. -/
structure Map.Shut (scheme : KeyScheme K δ) (map : Map K V) : Prop where
  stores : ∀ {ρ : Type} (request : Request K V ρ) (handles : Bool) (key : K) (hash : UInt64)
    (env : Env δ) (own : ρ), request.stores? = some key →
    (scheme.hashKey key map.table.seed env.keys).1 = .ok hash →
    StopsWith "concurrent map writes" (request.ask scheme handles ((map, env), own)).1
  removes : ∀ {ρ : Type} (request : Request K V ρ) (handles : Bool) (key : K) (hash : UInt64)
    (env : Env δ) (own : ρ), request.removes? = some key → map.isEmpty = false →
    (scheme.hashKey key map.table.seed env.keys).1 = .ok hash →
    StopsWith "concurrent map writes" (request.ask scheme handles ((map, env), own)).1
  overhauls : ∀ {ρ : Type} (request : Request K V ρ) (handles : Bool) (env : Env δ) (own : ρ),
    request.overhauls = true →
    StopsWith "concurrent map writes" (request.ask scheme handles ((map, env), own)).1
  looksUp : ∀ {ρ : Type} (request : Request K V ρ) (handles : Bool) (env : Env δ) (own : ρ),
    request.looksUp = true → map.isEmpty = false →
    StopsWith "concurrent map read and map write" (request.ask scheme handles ((map, env), own)).1
  list : ∀ {ρ : Type} (handles : Bool) (env : Env δ) (own : ρ), map.isEmpty = false →
    StopsWith "concurrent map iteration and map write"
      (Request.ask scheme handles (.plain .list) ((map, env), own)).1
  walk : ∀ (walk : Walk K V) (keys : KeyEnv δ), walk.len ≠ 0 →
    StopsWith "concurrent map iteration and map write" (walk.next scheme map keys).1
  cursor : ∀ (cursor : Cursor K V) (keys : KeyEnv δ), map.id = cursor.mapId →
    cursor.finished = false →
    StopsWith "concurrent map iteration and map write"
      (Cursor.next scheme map (cursor, keys)).1
  /-- Finished or not, and even if it is from another map. -/
  still : ∀ (cursor : Cursor K V) (keys : KeyEnv δ),
    (Cursor.next scheme map (cursor, keys)).2 = (cursor, keys)

namespace Map

theorem first_halts {act : MapAction K V δ α} {cause : Abort} {after : Map K V × Env δ}
    (halts : act.Halts (map, env) cause after) :
    act.first.Halts ((map, env), own) cause (after, own) := by
  refine ends_first.mpr (halts.mono (fun _ _ absurd => absurd) ?_)
  rintro failure s ⟨stopped, rfl⟩
  exact ⟨stopped, rfl⟩

/-- A call that reads is stopped where its reading is. -/
theorem reading_halts {β : Type} (act : Map K V → Action (KeyEnv δ) β) (answer : β → Answer K V)
    {cause : Abort} (halts : (act map).Halts env.keys cause keys) :
    Halts (first do return answer (← Map.onKeys (act (← Map.read)))) ((map, env), own) cause
      ((map, { env with keys }), own) := by
  refine Call.ends_reading.mpr (halts.mono (fun _ _ absurd => absurd) ?_)
  rintro failure s ⟨stopped, rfl⟩
  exact ⟨stopped, rfl⟩

end Map

namespace Request

variable {request : Request K V ρ} {hash : UInt64}

section Held

variable (held : map.latch.held = true)
include held

/-- A store is stopped once its key has hashed. -/
theorem stores_halts (named : request.stores? = some key)
    (hashes : (scheme.hashKey key map.table.seed env.keys).1 = .ok hash) :
    ∃ after, (request.attempt scheme).Halts ((map, env), own) .concurrentWrites after := by
  have run : scheme.hashKey key map.table.seed env.keys = (.ok hash, _) := Prod.ext hashes rfl
  cases request with
  | retain => cases named
  | getOrInsert key' default f =>
    obtain rfl := Option.some.inj named
    exact ⟨_, (Map.getOrInsert?_shut held default f run).map⟩
  | plain call =>
    cases call with
    | insert key' value =>
      obtain rfl := Option.some.inj named
      exact ⟨_, (Map.first_halts (Map.insert?_shut held value run)).map⟩
    | getOrInsert key' default f =>
      obtain rfl := Option.some.inj named
      exact ⟨_, (Map.getOrInsert?_shut held _ f run).map⟩
    | extend pairs =>
      cases pairs with
      | nil => cases named
      | cons pair pairs =>
        obtain rfl := Option.some.inj named
        exact ⟨_, (Map.first_halts (Map.insert?_shut held pair.2 run).orAbort.map.bind).map⟩
    | _ => cases named

/-- So is a removal, from a map that is not empty. -/
theorem removes_halts (named : request.removes? = some key) (filled : map.isEmpty = false)
    (hashes : (scheme.hashKey key map.table.seed env.keys).1 = .ok hash) :
    ∃ after, (request.attempt scheme).Halts ((map, env), own) .concurrentWrites after := by
  have run : scheme.hashKey key map.table.seed env.keys = (.ok hash, _) := Prod.ext hashes rfl
  cases request with
  | plain call =>
    cases call with
    | remove key' =>
      obtain rfl := Option.some.inj named
      exact ⟨_, (Map.first_halts (Map.removePair?_shut held filled run).bind).map⟩
    | removePair key' =>
      obtain rfl := Option.some.inj named
      exact ⟨_, (Map.first_halts (Map.removePair?_shut held filled run)).map⟩
    | _ => cases named
  | _ => cases named

theorem overhauls_halts (all : request.overhauls = true) :
    ∃ after, (request.attempt scheme).Halts ((map, env), own) .concurrentWrites after := by
  cases request with
  | retain f => exact ⟨_, (Map.writingWith_halts held _).map⟩
  | getOrInsert => cases all
  | plain call =>
    cases call with
    | clear => exact ⟨_, (Map.first_halts (Map.writing_halts held _)).map⟩
    | retain f => exact ⟨_, (Map.writingWith_halts held _).map⟩
    | sweep writes => exact ⟨_, Map.first_halts (Sweep.sweep_halts held _)⟩
    | _ => cases all

theorem looksUp_halts (looks : request.looksUp = true) (filled : map.isEmpty = false) :
    ∃ after, (request.attempt scheme).Halts ((map, env), own) .readDuringWrite after := by
  have finds (key : K) : (map.position? scheme key).Halts env.keys .readDuringWrite env.keys :=
    Map.position?_halts held filled
  cases request with
  | plain call =>
    cases call with
    | get key => exact ⟨_, Map.reading_halts (·.get? scheme key) .value? (finds key).bind.bind⟩
    | getPair key => exact ⟨_, Map.reading_halts (·.getPair? scheme key) .pair? (finds key).bind⟩
    | contains key =>
      exact ⟨_, Map.reading_halts (·.contains? scheme key) .holds (finds key).bind⟩
    | adjust key f => exact ⟨_, (Map.first_halts (Map.adjust_shut held filled f)).map⟩
    | _ => cases looks
  | _ => cases looks

theorem list_halts (filled : map.isEmpty = false) :
    ∃ after, (Request.attempt scheme (.plain (.list : Call K V ρ))).Halts ((map, env), own)
      .iterationDuringWrite after := by
  obtain ⟨_, halts⟩ : ∃ after, (map.toList scheme).Halts env.keys .iterationDuringWrite after :=
    Map.toList_shut held filled
  exact ⟨_, Map.reading_halts (·.toList scheme) .pairs halts⟩

end Held

end Request

theorem Map.shut (held : map.latch.held = true) : map.Shut scheme where
  stores _ handles _ _ _ _ named hashes :=
    (Request.stores_halts held named hashes).elim fun _ halts => Request.ask_stops halts handles
  removes _ handles _ _ _ _ named filled hashes :=
    (Request.removes_halts held named filled hashes).elim fun _ halts =>
      Request.ask_stops halts handles
  overhauls _ handles _ _ all :=
    (Request.overhauls_halts held all).elim fun _ halts => Request.ask_stops halts handles
  looksUp _ handles _ _ looks filled :=
    (Request.looksUp_halts held looks filled).elim fun _ halts => Request.ask_stops halts handles
  list handles _ _ filled :=
    (Request.list_halts held filled).elim fun _ halts => Request.ask_stops halts handles
  walk _ _ more := (Walk.next_shut held more).stops
  cursor _ _ mine going := (Cursor.next_shut held mine going).stops
  still cursor _ := cursor.next_still held

/-- Whatever is asked of a map, its latch is held afterwards just if it was held before, and a map
whose latch is held is left as it is. A writing walk has its map to itself and asks for no latch:
its steps change nothing but what is written at them. -/
theorem latch_guards_map (scheme : KeyScheme K δ) (map : Map K V) :
    (∀ {ρ : Type} (request : Request K V ρ) (handles : Bool) (env : Env δ) (own : ρ),
      (request.ask scheme handles ((map, env), own)).2.1.1.latch = map.latch ∧
      (map.latch.held = true → (request.ask scheme handles ((map, env), own)).2.1.1 = map)) ∧
    (∀ (sweep : Sweep) (env : Env δ),
      (∀ f : V → V, (sweep.next f (map, env) : _ × Map K V × Env δ).2.1.latch = map.latch) ∧
      (sweep.next id (map, env) : _ × Map K V × Env δ).2.1 = map) ∧
    (map.latch.held = true → map.Shut scheme) := by
  refine ⟨fun request handles env own => ?_, fun sweep env => ⟨fun f => ?_, ?_⟩, Map.shut⟩
  · exact Map.eq_of_frozen (request.ask_stands handles ((map, env), own))
  · exact Sweep.next_latch (map, env)
  · exact Sweep.next_idle (map, env)

/-- A map whose latch is held amid a doubling. -/
theorem latch_guards_map_amid_doubling : ∃ map : Map UInt64 Nat,
    map.latch.held = true ∧ map.table.resize.isSome = true ∧ map.table.count = 27 ∧
    (∀ {ρ : Type} (request : Request UInt64 Nat ρ) (handles : Bool) (env : Env Unit) (own : ρ),
      (request.ask (Key.word {}) handles ((map, env), own)).2.1.1 = map) ∧
    map.Shut (Key.word {}) := by
  obtain ⟨map, _, _, growing, count⟩ := reachable_amid_doubling
  have guarded := latch_guards_map (Key.word {}) { map with latch := ⟨true⟩ }
  exact ⟨{ map with latch := ⟨true⟩ }, rfl, growing, count, fun request handles env own =>
    (guarded.1 request handles env own).2 rfl, guarded.2.2 rfl⟩

end GradualMap
