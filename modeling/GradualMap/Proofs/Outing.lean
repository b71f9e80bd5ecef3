import GradualMap.Proofs.Drive
import GradualMap.Proofs.Tour

/-!
Cursors and strays. A stray cannot be looked up when its turn comes, so a cursor copies it when it
collects its class; and since no stray ever changes its class, one that stays in the table is copied
once, and so is one that is added ahead of the cursor.
-/

namespace GradualMap

open GradualMap.Action

variable {K V δ ρ : Type} {reading : Reading K} {scheme : KeyScheme K δ}

namespace Cursor

variable {table : Table K V} {cursor before after : Cursor K V} {answer : Option (K × V)}

/-- The entries that are queued as they were. -/
def copies (items : List (Pending K V)) : Multiset (Entry K V) :=
  (items.filterMap fun
    | .key _ => none
    | .copied stray value => some ⟨stray, value⟩ : List (Entry K V))

/-- The strays that a cursor is going to show if the table stays as it is. -/
def owes (reading : Reading K) (table : Table K V) (cursor : Cursor K V) : Multiset (Entry K V) :=
  copies cursor.pending +
    table.flock reading cursor.exponent fun c => decide (c ∈ cursor.ahead)

def entryOf (answer : Option (K × V)) : List (Entry K V) :=
  answer.toList.map fun pair => ⟨pair.1, pair.2⟩

theorem copies_key (key : K) (rest : List (Pending K V)) :
    copies (.key key :: rest) = copies rest :=
  rfl

theorem copies_copied (key : K) (value : V) (rest : List (Pending K V)) :
    copies (.copied key value :: rest) = {⟨key, value⟩} + copies rest :=
  rfl

theorem copies_queued (entries : List (Entry K V)) :
    copies (entries.map (queued reading)) = strays reading entries := by
  induction entries with
  | nil => rfl
  | cons entry entries ih =>
    rw [List.map_cons, strays_cons, ← ih]
    unfold queued
    by_cases known : reading.same entry.key entry.key = true
    · rw [if_pos known, strays_of_known known, copies_key, zero_add]
    · rw [if_neg known, copies_copied, strays_of_stray (Bool.eq_false_iff.mpr known)]

/-- A class that is collected is not ahead any more. -/
theorem flock_ahead (stands : Stands reading table cursor) {left : Nat}
    (more : cursor.indicesLeft = left + 1) :
    (table.flock reading cursor.exponent fun c => decide (c ∈ cursor.ahead)) =
      strays reading (gathered reading table cursor cursor.nextIndex) +
        table.flock reading cursor.exponent fun c => decide (c ∈ (cursor.turned left).ahead) := by
  have ahead := ahead_turned stands.bound more
  have fresh := (List.nodup_cons.mp (ahead ▸ stands.nodup)).1
  rw [strays_gathered stands.bound]
  refine Table.flock_add fun c => ?_
  rw [ahead]
  by_cases here : c = cursor.nextIndex
  · simp [here, fresh]
  · simp [here]

namespace Strides

theorem stands (sound : table.Sound (reading.rules True)) (stands : Stands reading table before)
    (strides : Strides reading table before answer after) :
    after.mapId = before.mapId ∧ Stands reading table after := by
  induction strides with
  | ended => exact ⟨rfl, stands⟩
  | drop _ queue _ _ ih => exact ih (stands.dequeue queue)
  | found _ queue => exact ⟨rfl, stands.dequeue queue⟩
  | copied _ queue => exact ⟨rfl, stands.dequeue queue⟩
  | collect _ idle more _ ih => exact ih (stands.collected sound idle more)
  | finish => exact ⟨rfl, ⟨stands.grown, stands.bound, stands.nodup, stands.fits⟩⟩

/-- A stray that is shown is owed no more, and no other is forgotten. -/
theorem owes (apart : reading.StraysApart) (sound : table.Sound (reading.rules True))
    (stands : Stands reading table before) (strides : Strides reading table before answer after) :
    strays reading (entryOf answer) + after.owes reading table = before.owes reading table := by
  induction strides with
  | ended => exact zero_add _
  | @drop cursor after answer key rest _ queue _ _ ih =>
    rw [ih (stands.dequeue queue)]
    unfold Cursor.owes
    rw [queue, copies_key]
    rfl
  | @found cursor key entry rest _ queue _ same =>
    have known : strays reading (entryOf (some (entry.key, entry.value))) = 0 :=
      strays_of_known (apart _ _ same).2
    unfold Cursor.owes
    rw [queue, copies_key, known, zero_add]
    rfl
  | @copied cursor key value rest _ queue =>
    have stray : reading.Stray key := stands.fits (.copied key value) (queue ▸ .head _)
    have shown : strays reading (entryOf (some (key, value))) = {⟨key, value⟩} :=
      strays_of_stray stray
    unfold Cursor.owes
    rw [queue, copies_copied, shown, add_assoc]
    rfl
  | @collect cursor after answer left _ idle more _ ih =>
    rw [ih (stands.collected sound idle more)]
    unfold Cursor.owes
    rw [flock_ahead stands more, idle]
    change copies (cursor.pending ++ _) + _ = _
    rw [idle, List.nil_append, copies_queued]
    exact (zero_add _).symm
  | finish => exact zero_add _

end Strides

end Cursor

/-- What a call has stored. -/
def Call.stored (own : ρ) (result : Except Failure (Answer K V)) (call : Call K V ρ) :
    List (Entry K V) :=
  match result with
  | .ok _ => call.entered own
  | .error _ => []

theorem Call.herds {before after : Map K V} {env env' : Env δ} {own own' : ρ} {call : Call K V ρ}
    {result : Except Failure (Answer K V)} (follows : scheme.Follows reading)
    (apart : reading.StraysApart) (sound : before.Sound (reading.rules True))
    (plain : call.Plain reading)
    (run : call.attempt scheme ((before, env), own) = (result, ((after, env'), own')))
    (calm : ∀ cause, result ≠ .error (.abort cause)) :
    Table.Herded reading call.drops (strays reading (call.stored own result)) before.table
      after.table := by
  cases result with
  | ok answer => exact (call.attempt_herds follows apart sound plain).answer run
  | error failure =>
    exact (call.attempt_herds follows apart sound plain).failure run
      fun ⟨cause, aborts⟩ => calm cause (congrArg _ aborts)

/-- What is remembered of a cursor's way over a map. -/
structure Diary (K V : Type) where
  /-- The map that the cursor was made of. -/
  first : Map K V
  /-- What calls have stored since then. -/
  added : List (Entry K V) := []
  /-- The maps that calls which drop entries have left, while the cursor was not at its end. -/
  thinned : List (Map K V) := []
  shown : List (Entry K V) := []

namespace Diary

/-- The diary after a call, which may have dropped entries while the cursor was on its way. -/
def called (diary : Diary K V) (stored : List (Entry K V)) (thins : Bool) (after : Map K V) :
    Diary K V :=
  { diary with
    added := diary.added ++ stored
    thinned := if thins then after :: diary.thinned else diary.thinned }

/-- The diary after a step of the cursor. -/
def stepped (diary : Diary K V) (answer : Option (K × V)) : Diary K V :=
  { diary with shown := diary.shown ++ Cursor.entryOf answer }

end Diary

/-- A tour on which no call changes a stray in place. -/
inductive Outing (scheme : KeyScheme K δ) (reading : Reading K) :
    Diary K V → Map K V → Cursor K V → Prop
  | start {map : Map K V} {cursor : Cursor K V} (env : KeyEnv δ)
      (reachable : Reachable scheme map) (run : (Cursor.ofMap map env).1 = .ok cursor) :
      Outing scheme reading { first := map } map cursor
  | call {diary : Diary K V} {before after : Map K V} {cursor : Cursor K V} {ρ : Type}
      {env env' : Env δ} {own own' : ρ} {result : Except Failure (Answer K V)} (call : Call K V ρ)
      (plain : call.Plain reading) (outing : Outing scheme reading diary before cursor)
      (run : call.attempt scheme ((before, env), own) = (result, ((after, env'), own')))
      (calm : ∀ cause, result ≠ .error (.abort cause)) :
      Outing scheme reading
        (diary.called (call.stored own result) (call.drops && !cursor.finished) after) after cursor
  | step {diary : Diary K V} {map : Map K V} {before after : Cursor K V} {env env' : KeyEnv δ}
      {answer : Option (K × V)} (outing : Outing scheme reading diary map before)
      (run : Cursor.next scheme map (before, env) = (.ok answer, (after, env'))) :
      Outing scheme reading (diary.stepped answer) map after

namespace Diary

/-- The strays that were in the map at any time. -/
def met (reading : Reading K) (diary : Diary K V) : Multiset (Entry K V) :=
  strays reading (diary.first.table.entries ++ diary.added)

/-- A stray of the first map that no call has dropped. -/
structure Stayed (reading : Reading K) (diary : Diary K V) (entry : Entry K V) : Prop where
  first : entry ∈ diary.first.table.entries
  stray : reading.Stray entry.key
  kept : ∀ map ∈ diary.thinned, entry ∈ map.table.entries

section

variable {diary : Diary K V} {stored : List (Entry K V)} {thins : Bool} {after : Map K V}
  {entry : Entry K V} {answer : Option (K × V)}

theorem met_called : (diary.called stored thins after).met reading =
    diary.met reading + strays reading stored := by
  rw [met, met, ← strays_append, List.append_assoc]
  rfl

theorem Stayed.before_call (stayed : (diary.called stored thins after).Stayed reading entry) :
    diary.Stayed reading entry ∧ (thins = true → entry ∈ after.table.entries) := by
  obtain ⟨first, stray, kept⟩ := stayed
  cases thins with
  | true => exact ⟨⟨first, stray, fun map mem => kept map (.tail _ mem)⟩, fun _ =>
      kept after (.head _)⟩
  | false => exact ⟨⟨first, stray, kept⟩, fun thins => by cases thins⟩

theorem Stayed.before_step (stayed : (diary.stepped answer).Stayed reading entry) :
    diary.Stayed reading entry :=
  ⟨stayed.first, stayed.stray, stayed.kept⟩

end

/-- What is known of a diary at any time: no stray has come from nowhere, and none that has stayed
is missing among those shown and those to come. -/
structure Kept (reading : Reading K) (diary : Diary K V) (map : Map K V) (cursor : Cursor K V) :
    Prop where
  mine : map.id = cursor.mapId
  stands : Cursor.Stands reading map.table cursor
  come : strays reading map.table.entries ≤ diary.met reading
  shown : strays reading diary.shown + cursor.owes reading map.table ≤ diary.met reading
  running : cursor.finished = false → (diary.met reading).Nodup → ∀ entry,
    diary.Stayed reading entry → entry ∈ strays reading diary.shown + cursor.owes reading map.table
  ended : cursor.finished = true → (diary.met reading).Nodup → ∀ entry,
    diary.Stayed reading entry → entry ∈ strays reading diary.shown

variable {diary : Diary K V} {map : Map K V} {cursor : Cursor K V}

theorem Kept.start (sound : map.Sound (reading.rules True)) {env : KeyEnv δ}
    (run : (Cursor.ofMap map env).1 = .ok cursor) : Kept reading { first := map } map cursor := by
  obtain ⟨mine, stands, idle, ahead, empty⟩ := (Cursor.ofMap_yields reading map env).of_ok run
  have met : met reading { first := map } = strays reading map.table.entries := by
    simp [Diary.met]
  have owes : cursor.owes reading map.table = strays reading map.table.entries := by
    rw [Cursor.owes, idle, ← Table.flock_all sound.table cursor.exponent]
    refine (zero_add _).trans (Table.flock_congr fun c inside => ?_)
    exact decide_eq_true (ahead.mem_iff.mpr (List.mem_range.mpr inside))
  refine ⟨mine, stands, met ▸ le_refl _, ?_, fun _ _ entry stayed => ?_,
    fun finished _ entry stayed => ?_⟩
  · rw [met, owes]
    exact le_of_eq (zero_add _)
  · rw [owes]
    exact Multiset.mem_add.mpr (.inr (mem_strays.mpr ⟨stayed.first, stayed.stray⟩))
  · have stored := stayed.first
    rw [show map.table.entries = [] from sound.table.entries_eq_nil.mp (empty finished)] at stored
    cases stored

theorem Kept.call {after : Map K V} {stored : List (Entry K V)} {drops : Bool}
    (kept : Kept reading diary map cursor) (sound : map.Sound (reading.rules True))
    (sound' : after.Sound (reading.rules True)) (onward : Map.Onward map after)
    (herded : Table.Herded reading drops (strays reading stored) map.table after.table) :
    Kept reading (diary.called stored (drops && !cursor.finished) after) after cursor := by
  have grown := kept.stands.grown
  have come := herded.strays_le sound.table sound'.table
  have owes : cursor.owes reading after.table ≤
      cursor.owes reading map.table + strays reading stored := by
    rw [Cursor.owes, Cursor.owes, add_assoc]
    exact add_le_add_right (herded.come _ grown _) _
  have apart (nodup : (diary.met reading + strays reading stored).Nodup) :
      (diary.met reading).Nodup := Multiset.nodup_of_le (Multiset.le_add_right _ _) nodup
  refine ⟨onward.id.trans kept.mine, ⟨Nat.le_trans grown herded.exponent_le, kept.stands.bound,
    kept.stands.nodup, kept.stands.fits⟩, ?_, ?_, ?_, ?_⟩
  · rw [met_called]
    exact come.trans (add_le_add_left kept.come _)
  · rw [met_called]
    refine (add_le_add_right owes _).trans ?_
    rw [← add_assoc]
    exact add_le_add_left kept.shown _
  · intro running nodup entry stayed
    rw [met_called] at nodup
    obtain ⟨stayed, here⟩ := stayed.before_call
    have was := kept.running running (apart nodup) entry stayed
    cases drops with
    | false =>
      exact Multiset.mem_of_le
        (add_le_add_right (add_le_add_right (herded.stay rfl _ grown _) _) _) was
    | true =>
      -- What is still in the map is where it was: if it had moved, it would be there twice.
      have stored := mem_strays.mpr ⟨here (by simp [running]), stayed.stray⟩
      rcases Multiset.mem_add.mp was with shown | owed
      · exact Multiset.mem_add.mpr (.inl shown)
      · refine Multiset.mem_add.mpr (.inr (Multiset.mem_add.mpr ?_))
        refine (Multiset.mem_add.mp owed).imp_right fun ahead => ?_
        exact herded.holds sound.table sound'.table
          (Multiset.nodup_of_le (add_le_add_left kept.come _) nodup) grown ahead stored
  · intro finished nodup entry stayed
    rw [met_called] at nodup
    exact kept.ended finished (apart nodup) entry stayed.before_call.1

theorem Kept.step {after : Cursor K V} {answer : Option (K × V)} (apart : reading.StraysApart)
    (kept : Kept reading diary map cursor) (sound : map.Sound (reading.rules True))
    (strides : Cursor.Strides reading map.table cursor answer after) :
    Kept reading (diary.stepped answer) map after := by
  obtain ⟨mapId, stands⟩ := strides.stands sound.table kept.stands
  have owes := strides.owes apart sound.table kept.stands
  have closes := strides.closes
  have all : strays reading (diary.stepped answer).shown + after.owes reading map.table =
      strays reading diary.shown + cursor.owes reading map.table := by
    rw [stepped, strays_append, add_assoc, owes]
  refine ⟨kept.mine.trans mapId.symm, stands, kept.come, all ▸ kept.shown, ?_, ?_⟩
  · intro running nodup entry stayed
    have before : cursor.finished = false := by
      by_contra finished
      rw [closes.last (Bool.not_eq_false _ ▸ finished)] at running
      exact finished running
    rw [all]
    exact kept.running before nodup entry stayed.before_step
  · intro finished nodup entry stayed
    cases before : cursor.finished with
    | true =>
      rw [stepped, strays_append]
      exact Multiset.mem_add.mpr (.inl (kept.ended before nodup entry stayed.before_step))
    | false =>
      obtain ⟨idle, none⟩ := closes.first before finished
      have nothing : after.owes reading map.table = 0 := by
        rw [Cursor.owes, idle, none]
        simpa [Cursor.copies] using Table.flock_none
      have shown := kept.running before nodup entry stayed.before_step
      rwa [← all, nothing, add_zero] at shown

end Diary

namespace Outing

variable {diary : Diary K V} {map : Map K V} {cursor : Cursor K V}

theorem called (outing : Outing scheme reading diary map cursor) (call : Call K V ρ)
    (plain : call.Plain reading) (env : Env δ) (own : ρ)
    (answered : (call.attempt scheme ((map, env), own)).1.toOption.isSome = true) :
    Outing scheme reading
      (diary.called (call.stored own (call.attempt scheme ((map, env), own)).1)
        (call.drops && !cursor.finished) (call.attempt scheme ((map, env), own)).2.1.1)
      (call.attempt scheme ((map, env), own)).2.1.1 cursor :=
  .call call plain outing rfl (calm_of_isSome answered)

theorem stepped (outing : Outing scheme reading diary map cursor) (env : KeyEnv δ)
    (answer : Option (K × V)) (run : (Cursor.next scheme map (cursor, env)).1 = .ok answer) :
    Outing scheme reading (diary.stepped answer) map
      (Cursor.next scheme map (cursor, env)).2.1 :=
  .step outing (Prod.ext run rfl)

theorem reachable (outing : Outing scheme reading diary map cursor) : Reachable scheme map := by
  induction outing with
  | start _ reachable _ => exact reachable
  | call call _ _ run calm ih => exact .called call ih run calm
  | step _ _ ih => exact ih

theorem kept (follows : scheme.Follows reading) (apart : reading.StraysApart)
    (outing : Outing scheme reading diary map cursor) : diary.Kept reading map cursor := by
  induction outing with
  | start env reachable run => exact .start (reachable.sound follows) run
  | @call _ before after _ _ _ _ _ _ _ call plain outing run calm ih =>
    have sound : before.Sound (reading.rules True) := outing.reachable.sound follows
    have sound' : after.Sound (reading.rules True) :=
      (Reachable.called call outing.reachable run calm).sound follows
    exact ih.call sound sound' (call.onward follows sound run calm)
      (call.herds follows apart sound plain run calm)
  | @step _ map before after _ _ answer outing run ih =>
    have sound : map.Sound (reading.rules True) := outing.reachable.sound follows
    have strides : Cursor.Strides reading map.table before answer after :=
      (Cursor.next_strides follows sound ih.mine ih.stands.fits _).answer run
    exact ih.step apart sound strides

end Outing

/-- However a map is called and grown between the steps of a cursor: if no two strays that were in
it are alike, the cursor shows none of them twice, and once it has no more to show, it has shown
every stray of the first map that no call has dropped. A step can only fail on a key that is refused
under one seed and not under another. -/
theorem outing_shows_strays_once {diary : Diary K V} {map : Map K V} {cursor : Cursor K V}
    (follows : scheme.Follows reading) (apart : reading.StraysApart)
    (outing : Outing scheme reading diary map cursor)
    (distinct : ((diary.first.table.entries ++ diary.added).filter (!·.isKnown reading)).Nodup) :
    (diary.shown.filter (!·.isKnown reading)).Nodup ∧
    (∀ env, (Cursor.next scheme map (cursor, env)).1 = .ok none →
      ∀ entry, diary.Stayed reading entry → entry ∈ diary.shown) ∧
    (reading.Steadfast → ∀ env, Yields (Cursor.next scheme map) (cursor, env) fun _ _ => True) := by
  have sound : map.Sound (reading.rules True) := outing.reachable.sound follows
  have kept := outing.kept follows apart
  refine ⟨?_, fun env nothing entry stayed => ?_, fun steadfast env => ?_⟩
  · exact Multiset.coe_nodup.mp (Multiset.nodup_of_le
      ((Multiset.le_add_right _ _).trans kept.shown) (Multiset.coe_nodup.mpr distinct))
  · have run : Cursor.next scheme map (cursor, env) =
        (.ok none, (Cursor.next scheme map (cursor, env)).2) := Prod.ext nothing rfl
    have strides : Cursor.Strides reading map.table cursor none _ :=
      (Cursor.next_strides follows sound kept.mine kept.stands.fits env).answer run
    have shown := (kept.step apart sound strides).ended (strides.closes.nothing rfl)
      (Multiset.coe_nodup.mpr distinct) entry ⟨stayed.first, stayed.stray, stayed.kept⟩
    have all : (diary.stepped none).shown = diary.shown := List.append_nil _
    exact all ▸ (mem_strays.mp shown).1
  · exact (Cursor.next_strides follows sound kept.mine kept.stands.fits env).mono
      (fun _ _ _ => trivial) fun _ _ fails => fails steadfast

/-- One of three strays that are shown was added on the way, amid two doublings. -/
theorem outing_shows_strays_once_amid_doublings : ∃ (diary : Diary (Floating .binary64) Nat)
    (map : Map (Floating .binary64) Nat) (cursor : Cursor (Floating .binary64) Nat),
    diary.first.table.exponent = 1 ∧ map.table.exponent = 3 ∧
    ((diary.first.table.entries ++ diary.added).filter
      (!·.isKnown (Key.floatingReading .binary64 {}))).Nodup ∧
    diary.shown.map (·.value) = [0, 1, 2] ∧
    (Cursor.next (Key.floating .binary64 {}) map (cursor, ⟨{}, ()⟩)).1 = .ok none ∧
    (diary.shown.filter (!·.isKnown (Key.floatingReading .binary64 {}))).Nodup ∧
    (∀ env, (Cursor.next (Key.floating .binary64 {}) map (cursor, env)).1 = .ok none →
      ∀ entry, diary.Stayed (Key.floatingReading .binary64 {}) entry → entry ∈ diary.shown) ∧
    ((Key.floatingReading .binary64 {}).Steadfast → ∀ env,
      Yields (Cursor.next (Key.floating .binary64 {}) map) (cursor, env) fun _ _ => True) := by
  obtain ⟨diary, map, cursor, outing, first, last, distinct, shown, ended⟩ :
      ∃ (diary : Diary (Floating .binary64) Nat) (map : Map (Floating .binary64) Nat)
        (cursor : Cursor (Floating .binary64) Nat),
        Outing (Key.floating .binary64 {}) (Key.floatingReading .binary64 {}) diary map cursor ∧
        diary.first.table.exponent = 1 ∧ map.table.exponent = 3 ∧
        ((diary.first.table.entries ++ diary.added).filter
          (!·.isKnown (Key.floatingReading .binary64 {}))).Nodup ∧
        diary.shown.map (·.value) = [0, 1, 2] ∧
        (Cursor.next (Key.floating .binary64 {}) map (cursor, ⟨{}, ()⟩)).1 = .ok none := by
    let nan : Floating .binary64 := ⟨0x7ff8000000000000⟩
    have made : Reachable (V := Nat) (Key.floating .binary64 {}) _ := .made .empty (.ample {}) rfl
    have filled := made.after (.extend ([(nan, 0), (nan, 1)] ++
      (List.range 7).map fun n => (⟨BitVec.ofNat _ (n + 1)⟩, n + 10))) (.ample {}) ()
      (by decide +kernel)
    have start : Outing (Key.floating .binary64 {}) (Key.floatingReading .binary64 {}) _ _ _ :=
      .start ⟨{}, ()⟩ filled rfl
    have one := start.stepped ⟨{}, ()⟩ (some (nan, 0)) (by decide +kernel)
    have grown := one.called (.extend ((List.range 40).map fun n =>
      (⟨BitVec.ofNat _ (n + 10)⟩, n + 20))) trivial (.ample {}) () (by decide +kernel)
    have added := grown.called (.insert nan 2) trivial (.ample {}) () (by decide +kernel)
    have thinned := added.called (.retain fun _ value own => ((value, value < 5), own))
      (fun _ _ _ _ => rfl) (.ample {}) () (by decide +kernel)
    have two := thinned.stepped ⟨{}, ()⟩ (some (nan, 1)) (by decide +kernel)
    have three := two.stepped ⟨{}, ()⟩ (some (nan, 2)) (by decide +kernel)
    exact ⟨_, _, _, three, by decide +kernel⟩
  exact ⟨diary, map, cursor, first, last, distinct, shown, ended, outing_shows_strays_once
    Key.floating_follows Key.floating_coherent.straysApart outing distinct⟩

end GradualMap
