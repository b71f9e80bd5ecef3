import GradualMap.Proofs.Outcome
import GradualMap.Traversal.Walk

/-!
Two schemes that answer alike as long as their surroundings are calm. Started there, whatever reads
a map with one of them runs as it does with the other, and leaves its surroundings calm.
-/

namespace GradualMap

namespace Action

variable {σ τ α β : Type} {pre mid post holds : σ → Prop} {act act' : Action σ α}

/-- Started in a state as described, the two run alike and end in a state as described. -/
def Matches (pre post : σ → Prop) (act act' : Action σ α) : Prop :=
  ∀ s, pre s → act s = act' s ∧ post (act s).2

abbrev Twin (holds : σ → Prop) (act act' : Action σ α) : Prop :=
  act.Matches holds holds act'

theorem Matches.bind {f f' : α → Action σ β} (first : Matches pre mid act act')
    (weaker : ∀ s, mid s → post s) (later : ∀ a, Matches mid post (f a) (f' a)) :
    Matches pre post (act >>= f) (act' >>= f') := by
  intro s before
  obtain ⟨same, between⟩ := first s before
  rw [bind_apply, bind_apply, ← same]
  generalize act s = run at *
  rcases run with ⟨_ | a, s'⟩
  · exact ⟨rfl, weaker s' between⟩
  · exact later a s' between

theorem Twin.bind {f f' : α → Action σ β} (first : Twin holds act act')
    (later : ∀ a, Twin holds (f a) (f' a)) : Twin holds (act >>= f) (act' >>= f') :=
  Matches.bind first (fun _ => id) later

theorem Twin.weaken (twin : Twin post act act') (stronger : ∀ s, pre s → post s) :
    Matches pre post act act' :=
  fun s h => twin s (stronger s h)

/-- The same with what is known of the answer. -/
theorem bind_of_ends {known : α → Prop} {f f' : α → Action σ β}
    (first : ∀ s, holds s → act.Ends s (fun a s => holds s ∧ known a) fun _ s => holds s)
    (later : ∀ a, known a → Twin holds (f a) (f' a)) : Twin holds (act >>= f) (act >>= f') := by
  intro s h
  have ended := first s h
  unfold Ends at ended
  rw [bind_apply, bind_apply]
  generalize act s = run at *
  rcases run with ⟨_ | a, s'⟩
  · exact ⟨rfl, ended⟩
  · exact later a ended.2 s' ended.1

/-- However it ends, it ends in a state as described. -/
theorem Twin.ends (twin : Twin holds act act') {s : σ} (h : holds s) :
    act.Ends s (fun _ => holds) fun _ => holds := by
  have after := (twin s h).2
  refine ends_run.mono ?_ ?_
  · intro a s' run
    rwa [run] at after
  · intro failure s' run
    rwa [run] at after

theorem twin_of_ends (ends : ∀ s, holds s → act.Ends s (fun _ => holds) fun _ => holds) :
    Twin holds act act := by
  intro s h
  have ended := ends s h
  unfold Ends at ended
  refine ⟨rfl, ?_⟩
  generalize act s = run at *
  rcases run with ⟨_ | _, _⟩ <;> exact ended

theorem twin_pure {a : α} : Twin holds (pure a) (pure a) :=
  fun _ h => ⟨rfl, h⟩

theorem twin_throw {failure : Failure} :
    Twin holds (throw failure : Action σ α) (throw failure) :=
  fun _ h => ⟨rfl, h⟩

theorem twin_abort {cause : Abort} : Twin holds (abort cause : Action σ α) (abort cause) :=
  fun _ h => ⟨rfl, h⟩

theorem twin_check {e : Except Abort α} : Twin holds (check e) (check e) := by
  cases e with
  | ok a => exact twin_pure
  | error cause => exact twin_abort

theorem matches_ite {c : Prop} [Decidable c] {other other' : Action σ α}
    (yes : Matches pre post act act') (no : Matches pre post other other') :
    Matches pre post (if c then act else other) (if c then act' else other') := by
  by_cases h : c
  · simpa only [if_pos h] using yes
  · simpa only [if_neg h] using no

theorem twin_ite {c : Prop} [Decidable c] {other other' : Action σ α}
    (yes : Twin holds act act') (no : Twin holds other other') :
    Twin holds (if c then act else other) (if c then act' else other') :=
  matches_ite yes no

theorem Twin.map {f : α → β} (twin : Twin holds act act') : Twin holds (f <$> act) (f <$> act') := by
  have bound : Twin holds (act >>= fun a => pure (f a)) (act' >>= fun a => pure (f a)) :=
    twin.bind fun _ => twin_pure
  exact bound

theorem Twin.discard (twin : Twin holds act act') :
    Twin holds (discard act) (discard act') :=
  Twin.map (f := fun _ => ()) twin

theorem Twin.forM {f f' : τ → Action σ Unit} (twin : ∀ item, Twin holds (f item) (f' item))
    (items : List τ) : Twin holds (items.forM f) (items.forM f') := by
  induction items with
  | nil => exact twin_pure
  | cons item items ih => exact (twin item).bind fun _ => ih

theorem Twin.first (twin : Twin holds act act') :
    Twin (fun s : σ × τ => holds s.1) act.first act'.first := by
  intro s h
  obtain ⟨same, after⟩ := twin s.1 h
  exact ⟨by simp only [Action.first, same], after⟩

theorem twin_second {act : Action τ α} : Twin (fun s : σ × τ => holds s.1) act.second act.second :=
  fun _ h => ⟨rfl, h⟩

theorem Twin.ensuring {last : σ → σ} (twin : Twin holds act act')
    (kept : ∀ s, holds s → holds (last s)) :
    Twin holds (act.ensuring last) (act'.ensuring last) := by
  intro s h
  obtain ⟨same, after⟩ := twin s h
  exact ⟨by simp only [Action.ensuring, same], kept _ after⟩

theorem Twin.orAbort (twin : Twin holds act act') : Twin holds act.orAbort act'.orAbort := by
  intro s h
  obtain ⟨same, after⟩ := twin s h
  exact ⟨by simp only [Action.orAbort, adapt_apply, same], after⟩

end Action

open GradualMap.Action

variable {K V δ ρ α : Type}

/-- In calm surroundings the two schemes answer alike, and leave them calm. -/
structure KeyScheme.Accord (scheme scheme' : KeyScheme K δ) (calm : KeyEnv δ → Prop) : Prop where
  traits : scheme.traits = scheme'.traits
  hash : ∀ key seed env, calm env →
    scheme.hash key seed env = scheme'.hash key seed env ∧ calm (scheme.hash key seed env).2
  equal : ∀ a b env, calm env →
    scheme.equal a b env = scheme'.equal a b env ∧ calm (scheme.equal a b env).2
  draw : ∀ env, calm env → calm { env with draws := env.draws.next.2 }

variable {scheme scheme' : KeyScheme K δ} {calm : KeyEnv δ → Prop}

theorem KeyM.twin_toAction {act act' : KeyM δ α}
    (alike : ∀ env, calm env → act env = act' env ∧ calm (act env).2) :
    Twin calm act.toAction act'.toAction := by
  intro env h
  obtain ⟨same, after⟩ := alike env h
  exact ⟨by simp only [KeyM.toAction, adapt_apply, same], after⟩

namespace KeyScheme.Accord

theorem draws (accord : scheme.Accord scheme' calm) : Twin calm KeyEnv.draw KeyEnv.draw :=
  KeyM.twin_toAction fun env h => ⟨rfl, accord.draw env h⟩

theorem hashKey (accord : scheme.Accord scheme' calm) (key : K) (seed : UInt64) :
    Twin calm (scheme.hashKey key seed) (scheme'.hashKey key seed) := by
  apply (KeyM.twin_toAction (accord.hash key seed)).bind
  intro answer
  cases answer with
  | ok hash => exact twin_pure
  | error refusal => exact twin_throw

theorem rehash (accord : scheme.Accord scheme' calm) (key : K) (seed : UInt64) :
    Twin calm (scheme.rehash key seed) (scheme'.rehash key seed) := by
  apply (KeyM.twin_toAction (accord.hash key seed)).bind
  intro answer
  cases answer with
  | ok hash => exact twin_pure
  | error refusal => exact twin_abort

theorem same (accord : scheme.Accord scheme' calm) (a b : K) :
    Twin calm (scheme.same a b) (scheme'.same a b) :=
  KeyM.twin_toAction (accord.equal a b)

theorem selfEqual (accord : scheme.Accord scheme' calm) (key : K) :
    Twin calm (scheme.selfEqual key) (scheme'.selfEqual key) := by
  unfold KeyScheme.selfEqual
  rw [accord.traits]
  exact twin_ite twin_pure (accord.same key key)

theorem route (accord : scheme.Accord scheme' calm) (routing : Routing) (top : UInt8) (key : K) :
    Twin calm (routing.route scheme top key) (routing.route scheme' top key) := by
  refine twin_ite twin_pure ((accord.rehash key routing.seed).bind fun hash =>
    (accord.selfEqual key).bind fun self => ?_)
  cases self with
  | true => exact twin_pure
  | false => exact twin_pure

theorem probe (accord : scheme.Accord scheme' calm) (key : K) (top : UInt8)
    (row : List (Slot K V)) : ∀ {offset : Nat} {free : Option Nat},
      Twin calm (GradualMap.probe scheme key top row offset free)
        (GradualMap.probe scheme' key top row offset free) := by
  induction row with
  | nil => exact twin_pure
  | cons slot rest ih =>
    intro offset free
    obtain ⟨tag, entry⟩ := slot
    cases tag with
    | emptyRest => exact twin_pure
    | emptyOne => exact ih
    | full top' =>
      cases entry with
      | none => exact ih
      | some entry =>
        have later (hit : Bool) : Twin calm
            (if hit then return .found offset
              else GradualMap.probe scheme key top rest (offset + 1) free)
            (if hit then return .found offset
              else GradualMap.probe scheme' key top rest (offset + 1) free) :=
          twin_ite twin_pure ih
        exact twin_ite ((accord.same key entry.key).bind later) (twin_pure.bind later)
    | _ => exact ih

theorem probeEmpty (accord : scheme.Accord scheme' calm) (key : K) :
    Twin calm (Table.probeEmpty scheme key) (Table.probeEmpty scheme' key) := by
  unfold Table.probeEmpty
  rw [accord.traits]
  exact twin_ite (accord.hashKey key 0).discard twin_pure

theorem destinedFor (accord : scheme.Accord scheme' calm) (table : Table K V) (key : K)
    (top : UInt8) (index : Nat) :
    Twin calm (Table.destinedFor scheme table key top index)
      (Table.destinedFor scheme' table key top index) := by
  unfold Table.destinedFor
  cases table.resize with
  | none => exact twin_pure
  | some resize =>
    refine twin_ite twin_pure ((accord.selfEqual key).bind fun self => ?_)
    exact twin_ite ((accord.rehash key table.seed).bind fun _ => twin_pure) twin_pure

theorem find (accord : scheme.Accord scheme' calm) (table : Table K V) (key : K) (hash : UInt64) :
    Twin calm (Table.find scheme table key hash) (Table.find scheme' table key hash) := by
  refine twin_ite twin_pure (twin_check.bind fun (era, index) => twin_check.bind fun chain =>
    (accord.probe key _ chain.slots).bind fun answer => ?_)
  cases answer with
  | found offset => exact twin_pure
  | missing free => exact twin_pure

theorem position? (accord : scheme.Accord scheme' calm) (map : Map K V) (key : K) :
    Twin calm (map.position? scheme key) (map.position? scheme' key) :=
  twin_ite ((accord.probeEmpty key).bind fun _ => twin_pure) (twin_check.bind fun _ =>
    (accord.hashKey key _).bind fun hash => accord.find map.table key hash)

theorem getPair? (accord : scheme.Accord scheme' calm) (map : Map K V) (key : K) :
    Twin calm (map.getPair? scheme key) (map.getPair? scheme' key) := by
  apply (accord.position? map key).bind
  intro found
  cases found with
  | none => exact twin_pure
  | some pos => exact twin_check.bind fun _ => twin_pure

theorem get? (accord : scheme.Accord scheme' calm) (map : Map K V) (key : K) :
    Twin calm (map.get? scheme key) (map.get? scheme' key) :=
  (accord.getPair? map key).bind fun _ => twin_pure

theorem contains? (accord : scheme.Accord scheme' calm) (map : Map K V) (key : K) :
    Twin calm (map.contains? scheme key) (map.contains? scheme' key) :=
  (accord.position? map key).bind fun _ => twin_pure

theorem startDraw (accord : scheme.Accord scheme' calm) (exponent : Nat) :
    Twin calm (Start.draw exponent) (Start.draw exponent) :=
  accord.draws.bind fun _ => twin_pure

theorem firstWanted (accord : scheme.Accord scheme' calm) (table : Table K V) (only : Option Nat)
    (row : List (Slot K V)) :
    Twin calm (Walk.firstWanted scheme table only row) (Walk.firstWanted scheme' table only row) := by
  induction row with
  | nil => exact twin_pure
  | cons slot rest ih =>
    unfold Walk.firstWanted
    cases slot.live? with
    | none => exact ih
    | some item =>
      obtain ⟨top, entry⟩ := item
      cases only with
      | none => exact twin_pure
      | some index =>
        exact (accord.destinedFor table entry.key top index).bind fun wanted =>
          twin_ite twin_pure ih

theorem resume (accord : scheme.Accord scheme' calm) (table : Table K V) (walk : Walk K V) :
    Twin calm (Walk.resume scheme table walk) (Walk.resume scheme' table walk) := by
  apply (accord.firstWanted table walk.only walk.pending).bind
  intro found
  cases found with
  | none => exact twin_pure
  | some found => exact twin_pure

theorem advance (accord : scheme.Accord scheme' calm) (table : Table K V) (indices : Nat) :
    ∀ walk : Walk K V,
      Twin calm (Walk.advance scheme table indices walk) (Walk.advance scheme' table indices walk) := by
  induction indices with
  | zero => exact fun _ => twin_pure
  | succ indices ih =>
    intro walk
    refine twin_check.bind fun visited => (accord.resume table visited).bind fun (found, walk) => ?_
    cases found with
    | none => exact ih walk
    | some pair => exact twin_pure

theorem next (accord : scheme.Accord scheme' calm) (map : Map K V) (walk : Walk K V) :
    Twin calm (walk.next scheme map) (walk.next scheme' map) := by
  refine twin_ite twin_pure (twin_check.bind fun _ =>
    (accord.resume map.table walk).bind fun (found, walk) => ?_)
  cases found with
  | none => exact accord.advance map.table walk.indicesLeft walk
  | some pair => exact twin_pure

theorem take (accord : scheme.Accord scheme' calm) (map : Map K V) (limit : Nat) :
    ∀ walk : Walk K V, Twin calm (walk.take scheme map limit) (walk.take scheme' map limit) := by
  induction limit with
  | zero => exact fun _ => twin_pure
  | succ limit ih =>
    intro walk
    apply (accord.next map walk).bind
    rintro ⟨found, walk⟩
    cases found with
    | none => exact twin_pure
    | some pair => exact (ih walk).bind fun _ => twin_pure

theorem toList (accord : scheme.Accord scheme' calm) (map : Map K V) :
    Twin calm (map.toList scheme) (map.toList scheme') :=
  ((accord.startDraw _).bind fun _ => twin_pure).bind fun walk =>
    (accord.take map _ walk).bind fun _ => twin_pure

end KeyScheme.Accord

end GradualMap
