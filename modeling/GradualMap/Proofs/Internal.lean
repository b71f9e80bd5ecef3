import GradualMap.Proofs.Cursor

/-!
Failures that only a broken table could have. A table that is held to its shape, and to nothing
about where its keys are, has none of them: not when it is looked up, nor when it is walked over or
a cursor collects from it, however its keys are hashed and compared.
-/

namespace GradualMap

open GradualMap.Action

/-- What a table aborts with that is not in the shape it should be in. -/
def Abort.Internal : Abort → Prop
  | .corrupt | .outOfRange _ _ | .tailLinked | .underflow | .shiftTooFar | .growthRestarts => True
  | _ => False

def Failure.Internal : Failure → Prop
  | .abort cause => cause.Internal
  | .fault _ => False

/-- A stored key was asked for its hash and refused. -/
def Failure.StoredKeyRefused (failure : Failure) : Prop :=
  ∃ refusal, failure = .abort (.storedKeyRefused refusal)

namespace Action

variable {σ τ α β : Type} {act : Action σ α} {s : σ} {post : α → σ → Prop}

/-- The answer is as described, and a failure is not the table's own. -/
abbrev Safe (act : Action σ α) (s : σ) (post : α → σ → Prop) : Prop :=
  act.Ends s post fun failure _ => ¬ failure.Internal

theorem Safe.mono {post' : α → σ → Prop} (safe : act.Safe s post)
    (answers : ∀ a s, post a s → post' a s) : act.Safe s post' :=
  Ends.mono safe answers fun _ _ => id

theorem safe_check {e : Except Abort α} (outer : ∀ cause, e = .error cause → ¬ cause.Internal) :
    Safe (check e) s fun a s' => e = .ok a ∧ s' = s := by
  cases e with
  | ok a => exact ⟨rfl, rfl⟩
  | error cause => exact outer cause rfl

theorem safe_forM {f : τ → Action σ Unit} (items : List τ)
    (each : ∀ item ∈ items, ∀ s, Safe (f item) s fun _ _ => True) :
    ∀ {s}, Safe (items.forM f) s fun _ _ => True := by
  induction items with
  | nil => exact trivial
  | cons item items ih =>
    intro s
    change Safe (do f item; items.forM f) s _
    rw [Safe, ends_bind]
    exact (each item (.head _) s).mono fun _ _ _ => ih fun item mem => each item (.tail _ mem)

end Action

variable {K V δ : Type} {scheme : KeyScheme K δ} {key : K} {seed : UInt64} {env : KeyEnv δ}

/-- A scheme gives up with a text of its own. -/
theorem KeyM.safe_toAction {α : Type} (act : KeyM δ α) (env : KeyEnv δ) :
    Safe act.toAction env fun _ _ => True := by
  unfold Safe
  rw [ends_toAction]
  rcases act env with ⟨text | a, after⟩
  · exact id
  · trivial

namespace KeyScheme

theorem safe_hashKey : Safe (scheme.hashKey key seed) env fun hash _ =>
    scheme.Hashes key seed hash := by
  have safe : Safe (scheme.hashKey key seed) env fun _ _ => True := by
    unfold hashKey Safe
    rw [ends_bind]
    refine (KeyM.safe_toAction _ env).mono ?_
    rintro (refusal | hash) env _
    · exact id
    · trivial
  exact (Ends.both hashKey_ends safe).mono (fun _ _ h => h.1) fun _ _ h => h.2

theorem safe_rehash : Safe (scheme.rehash key seed) env fun _ _ => True := by
  unfold rehash Safe
  rw [ends_bind]
  refine (KeyM.safe_toAction _ env).mono ?_
  rintro (refusal | hash) env _
  · exact id
  · trivial

theorem Balks.not_internal {failure : Failure} (balks : scheme.Balks failure) :
    ¬ failure.Internal := by
  obtain ⟨a, b, env, run⟩ := balks
  exact (KeyM.safe_toAction (scheme.equal a b) env).of_error run

theorem Declines.not_internal {failure : Failure} (declines : scheme.Declines key seed failure) :
    ¬ failure.Internal := by
  obtain ⟨env, run⟩ := declines
  have safe : Safe (scheme.hashKey key seed) env fun hash _ => scheme.Hashes key seed hash :=
    safe_hashKey
  exact safe.of_error run

theorem safe_selfEqual : Safe (scheme.selfEqual key) env fun _ _ => True := by
  unfold selfEqual Safe
  split
  · trivial
  · exact KeyM.safe_toAction _ env

end KeyScheme

theorem Latch.check_outer (latch : Latch) (cause : Abort)
    (failed : latch.check .iterationDuringWrite = .error cause) : ¬ cause.Internal := by
  unfold Latch.check at failed
  split at failed
  · cases failed
    exact id
  · cases failed

namespace Table

variable {rules : Rules K} {table : Table K V} {index : Nat}

theorem safe_destinedFor {top : UInt8} :
    Safe (table.destinedFor scheme key top index) env fun _ _ => True := by
  unfold destinedFor Safe
  cases table.resize with
  | none => trivial
  | some resize =>
    simp only
    split
    · trivial
    · rw [ends_bind]
      refine KeyScheme.safe_selfEqual.mono fun self env _ => ?_
      split
      · rw [ends_bind]
        exact KeyScheme.safe_rehash.mono fun _ _ _ => trivial
      · trivial

/-- Whatever index a walk comes to, there is the chain that has its entries. -/
theorem Sound.visited (sound : table.Sound rules) (bound : index < table.current.size) :
    ∃ era source chain, table.source index = .ok (era, source) ∧
      table.chain era source = .ok chain :=
  ⟨_, _, _, sound.source_eq index, sound.chain_home bound⟩

theorem safe_findStored (sound : table.Sound rules) :
    Safe (table.findStored scheme key) env fun _ _ => True := by
  unfold findStored Safe
  split
  · trivial
  · rw [ends_bind]
    refine KeyScheme.safe_rehash.mono fun hash env _ => ?_
    rw [ends_bind]
    refine (find_ends sound env).mono ?_ fun failure _ balks => balks.not_internal
    rintro (_ | pos) env located
    · trivial
    · obtain ⟨entry, holds, _⟩ := located
      simp only
      rw [ends_bind, ends_check_ok holds.entryAt]
      trivial

end Table

namespace Walk

variable {rules : Rules K} {table : Table K V} {walk : Walk K V}

theorem safe_firstWanted (only : Option Nat) (row : List (Slot K V)) : ∀ {env : KeyEnv δ},
    Safe (firstWanted scheme table only row) env fun _ _ => True := by
  induction row with
  | nil => exact trivial
  | cons slot rest ih =>
    intro env
    unfold firstWanted Safe
    cases slot.live? with
    | none => exact ih
    | some item =>
      obtain ⟨top, entry⟩ := item
      cases only with
      | none => trivial
      | some index =>
        simp only
        rw [ends_bind]
        refine Table.safe_destinedFor.mono fun wanted env _ => ?_
        split
        · trivial
        · exact ih

/-- What a step of a walk may rely on, and keeps: its next index is one of the current array, and
with entries to come there is an array. -/
structure Fits (table : Table K V) (walk : Walk K V) : Prop where
  bound : walk.nextIndex < bucketCount table.exponent
  filled : walk.remaining ≠ 0 → table.count ≠ 0

theorem Fits.less {walk' : Walk K V} (fits : Fits table walk)
    (index : walk'.nextIndex = walk.nextIndex) (less : walk'.remaining ≤ walk.remaining) :
    Fits table walk' :=
  ⟨index ▸ fits.bound, fun more => fits.filled (by omega)⟩

theorem safe_resume (fits : Fits table walk) :
    Safe (resume scheme table walk) env fun answer _ => Fits table answer.2 := by
  unfold resume Safe
  rw [ends_bind]
  refine (safe_firstWanted walk.only walk.pending).mono ?_
  rintro (_ | ⟨entry, pending⟩) env _
  · exact fits.less rfl (Nat.le_refl _)
  · exact fits.less rfl (Nat.sub_le _ _)

theorem safe_advance (sound : table.Sound rules) (filled : table.count ≠ 0) (indices : Nat) :
    ∀ {walk : Walk K V} {env : KeyEnv δ}, Fits table walk →
      Safe (advance scheme table indices walk) env fun answer _ => Fits table answer.2 := by
  induction indices with
  | zero => exact fun fits => fits.less rfl (Nat.le_refl _)
  | succ indices ih =>
    intro walk env fits
    have bound : walk.nextIndex < table.current.size := by
      rw [sound.size_eq (sound.allocated_of_filled filled)]
      exact fits.bound
    obtain ⟨era, source, chain, home, fetched⟩ := sound.visited bound
    have visited : walk.visit table = .ok { walk with
        nextIndex := (walk.nextIndex + 1) % bucketCount table.exponent
        indicesLeft := walk.indicesLeft - 1
        pending := chain.rotated walk.offset
        only := if era = .former then some walk.nextIndex else none } := by
      simp [visit, home, fetched, bind, Except.bind, pure, Except.pure]
    have fits' : Fits table { walk with
        nextIndex := (walk.nextIndex + 1) % bucketCount table.exponent
        indicesLeft := walk.indicesLeft - 1
        pending := chain.rotated walk.offset
        only := if era = .former then some walk.nextIndex else none } :=
      ⟨Nat.mod_lt _ (bucketCount_pos _), fits.filled⟩
    unfold advance Safe
    rw [ends_bind, ends_check_ok visited, ends_bind]
    refine (safe_resume fits').mono ?_
    rintro ⟨_ | pair, walk'⟩ env fits''
    · exact ih fits''
    · exact fits''

/-- A walk over a map, at any of its stages. -/
inductive Over (scheme : KeyScheme K δ) (map : Map K V) : Walk K V → Prop
  | fresh {walk : Walk K V} (env : KeyEnv δ) (run : (ofMap map env).1 = .ok walk) :
      Over scheme map walk
  | next {walk walk' : Walk K V} {found : Option (K × V)} (earlier : Over scheme map walk)
      (env : KeyEnv δ) (run : (walk.next scheme map env).1 = .ok (found, walk')) :
      Over scheme map walk'

theorem safe_next {map : Map K V} (sound : map.table.Sound rules) (fits : Fits map.table walk) :
    Safe (walk.next scheme map) env fun answer _ => Fits map.table answer.2 := by
  unfold next Safe
  split
  · exact fits.less rfl (Nat.le_refl _)
  · rename_i more
    have filled : map.table.count ≠ 0 := by
      apply fits.filled
      simp only [Bool.or_eq_true, decide_eq_true_eq, not_or] at more
      exact more.2
    rw [ends_bind]
    refine (safe_check map.latch.check_outer).mono fun _ env' _ => ?_
    rw [ends_bind]
    refine (safe_resume fits).mono ?_
    rintro ⟨_ | pair, walk'⟩ env fits'
    · exact safe_advance sound filled _ fits'
    · exact fits'

theorem ofMap_fits (map : Map K V) (env : KeyEnv δ) :
    Yields (ofMap map) env fun walk _ => Fits map.table walk := by
  unfold ofMap Start.draw Yields
  rw [ends_bind, ends_bind]
  refine (KeyEnv.draw_yields env).ends fun word _ _ => ?_
  exact ⟨Nat.mod_lt _ (bucketCount_pos _), id⟩

theorem Over.fits {map : Map K V} (sound : map.table.Sound rules) (stage : Over scheme map walk) :
    Fits map.table walk := by
  induction stage with
  | fresh env run => exact (ofMap_fits map env).of_ok run
  | next _ env run ih => exact (safe_next sound ih).of_ok run

theorem safe_take {map : Map K V} (sound : map.table.Sound rules) (limit : Nat) :
    ∀ {walk : Walk K V} {env : KeyEnv δ}, Fits map.table walk →
      Safe (walk.take scheme map limit) env fun _ _ => True := by
  induction limit with
  | zero => exact fun _ => trivial
  | succ limit ih =>
    intro walk env fits
    unfold take
    rw [Safe, ends_bind]
    refine (safe_next sound fits).mono ?_
    rintro ⟨_ | pair, walk'⟩ env fits'
    · trivial
    · rw [ends_bind]
      exact (ih fits').mono fun _ _ _ => trivial

end Walk

theorem Map.safe_toList {rules : Rules K} {map : Map K V} (sound : map.table.Sound rules) :
    Safe (map.toList scheme) env fun _ _ => True := by
  unfold toList
  rw [Safe, ends_bind]
  refine (Walk.ofMap_fits map env).ends fun walk env fits => ?_
  rw [ends_bind]
  exact (Walk.safe_take sound _ fits).mono fun _ _ _ => trivial

namespace Cursor

variable {rules : Rules K} {table : Table K V}

theorem safe_collectSlots (only : Option Nat) (row : List (Slot K V)) :
    ∀ {s : Cursor K V × KeyEnv δ}, Safe (collectSlots scheme table only row) s
      fun _ _ => True := by
  induction row with
  | nil => exact trivial
  | cons slot rest ih =>
    intro s
    unfold collectSlots Safe
    cases slot.live? with
    | none => exact ih
    | some item =>
      obtain ⟨top, entry⟩ := item
      have decided (wanted : Bool) (s : Cursor K V × KeyEnv δ) : Safe (if wanted then do
            let self ← second (scheme.selfEqual entry.key)
            modify fun cursor => { cursor with
              pending := cursor.pending ++
                [if self then .key entry.key else .copied entry.key entry.value] }
            collectSlots scheme table only rest
          else collectSlots scheme table only rest) s fun _ _ => True := by
        cases wanted with
        | true =>
          simp only [if_true]
          rw [Safe, ends_bind, ends_second]
          exact KeyScheme.safe_selfEqual.mono fun _ _ _ => ih
        | false =>
          simp only [Bool.false_eq_true, if_false]
          exact ih
      cases only with
      | none => exact decided true s
      | some index =>
        simp only
        rw [ends_bind, ends_second]
        exact Table.safe_destinedFor.mono fun wanted env _ => decided wanted _

/-- The indices that a cursor collects from are all of the current array. -/
theorem safe_collect (sound : table.Sound rules) (first : Nat) (s : Cursor K V × KeyEnv δ) :
    Safe (collect scheme table first) s fun _ _ => True := by
  unfold collect
  split
  · trivial
  · rw [Safe, ends_bind]
    refine safe_forM _ fun index mem s => ?_
    have bound := ((mem_classOf (bucketCount_pos _)).mp mem).1
    obtain ⟨era, source, chain, home, fetched⟩ := sound.visited bound
    rw [Safe, ends_bind, ends_check_ok home]
    simp only
    rw [ends_bind, ends_check_ok fetched]
    exact safe_collectSlots _ _

theorem safe_drain (sound : table.Sound rules) (items : List (Pending K V)) :
    ∀ {s : Cursor K V × KeyEnv δ}, Safe (drain scheme table items) s fun _ _ => True := by
  induction items with
  | nil => exact trivial
  | cons item rest ih =>
    intro s
    unfold drain
    rw [Safe, ends_bind, ends_modify]
    cases item with
    | copied key value => trivial
    | key key =>
      simp only
      rw [ends_bind, ends_second]
      refine (Table.safe_findStored sound).mono ?_
      rintro (_ | entry) env _
      · exact ih
      · trivial

theorem safe_advance (sound : table.Sound rules) (indices : Nat) :
    ∀ {s : Cursor K V × KeyEnv δ}, Safe (advance scheme table indices) s fun _ _ => True := by
  induction indices with
  | zero => exact trivial
  | succ indices ih =>
    intro s
    unfold advance
    rw [Safe, ends_bind, ends_read, ends_bind, ends_modify, ends_bind]
    refine (safe_collect sound _ _).mono fun _ s _ => ?_
    rw [ends_bind, ends_read, ends_bind]
    refine (safe_drain sound _).mono ?_
    rintro (_ | pair) s _
    · exact ih
    · trivial

/-- A cursor of any map may be stepped on a sound one; a foreign one is told so. -/
theorem safe_next {map : Map K V} (sound : map.table.Sound rules)
    (s : Cursor K V × KeyEnv δ) : Safe (next scheme map) s fun _ _ => True := by
  obtain ⟨cursor, env⟩ := s
  unfold next
  rw [Safe, ends_bind, ends_read]
  by_cases mine : map.id = cursor.mapId
  · by_cases finished : cursor.finished = true
    · simp only [mine, finished, if_true]
      trivial
    · have running := Bool.eq_false_iff.mpr finished
      simp only [mine, running, if_true, Bool.false_eq_true, if_false]
      rw [ends_bind]
      refine (safe_check map.latch.check_outer).mono fun _ s _ => ?_
      rw [ends_bind]
      refine (safe_drain sound _).mono ?_
      rintro (_ | pair) s _
      · exact safe_advance sound _
      · trivial
  · simp only [mine, if_false]
    split
    · exact id
    · exact id

end Cursor

end GradualMap
