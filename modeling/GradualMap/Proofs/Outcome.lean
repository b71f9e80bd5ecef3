import GradualMap.Map.Update

/-!
How an operation ends. `Ends` says of one run what holds of its answer and of the state it leaves,
and the same of a failure; `Yields` says that it does not fail. The rules below take an operation
apart along its steps.
-/

namespace GradualMap

/-- The failure ends the operation in the middle, with no answer that a caller could act on. -/
def Failure.Aborts (failure : Failure) : Prop :=
  ∃ cause, failure = .abort cause

namespace Action

variable {σ τ α β : Type}

def Ends (act : Action σ α) (s : σ) (post : α → σ → Prop) (fails : Failure → σ → Prop) : Prop :=
  match act s with
  | (.ok a, after) => post a after
  | (.error failure, after) => fails failure after

def Yields (act : Action σ α) (s : σ) (post : α → σ → Prop) : Prop :=
  act.Ends s post fun _ _ => False

variable {act : Action σ α} {s : σ} {post post' : α → σ → Prop}
  {fails fails' : Failure → σ → Prop}

theorem Ends.mono (h : act.Ends s post fails) (answers : ∀ a s, post a s → post' a s)
    (failures : ∀ f s, fails f s → fails' f s) : act.Ends s post' fails' := by
  unfold Ends at *
  generalize act s = run at *
  rcases run with ⟨_ | _, _⟩
  · exact failures _ _ h
  · exact answers _ _ h

theorem Yields.ends (h : act.Yields s post) (answers : ∀ a s, post a s → post' a s) :
    act.Ends s post' fails :=
  Ends.mono h answers fun _ _ => False.elim

theorem Yields.mono (h : act.Yields s post) (answers : ∀ a s, post a s → post' a s) :
    act.Yields s post' :=
  h.ends answers

theorem Ends.both (h : act.Ends s post fails) (h' : act.Ends s post' fails') :
    act.Ends s (fun a s => post a s ∧ post' a s) (fun f s => fails f s ∧ fails' f s) := by
  unfold Ends at *
  generalize act s = run at *
  rcases run with ⟨_ | _, _⟩ <;> exact ⟨h, h'⟩

/-- What is known of the answers of an operation that does not fail. -/
theorem Yields.also (h : act.Yields s post) (h' : act.Ends s post' fails) :
    act.Yields s fun a s => post a s ∧ post' a s :=
  (Ends.both h h').mono (fun _ _ => id) fun _ _ => And.left

theorem yields_iff :
    act.Yields s post ↔ ∃ a after, act s = (.ok a, after) ∧ post a after := by
  unfold Yields Ends
  generalize act s = run
  rcases run with ⟨_ | a, after⟩
  · constructor
    · exact False.elim
    · rintro ⟨_, _, ⟨⟩, _⟩
  · constructor
    · exact fun h => ⟨a, after, rfl, h⟩
    · rintro ⟨_, _, ⟨⟩, h⟩
      exact h

theorem Ends.answer {a : α} {after : σ} (h : act.Ends s post fails) (run : act s = (.ok a, after)) :
    post a after := by
  unfold Ends at h
  rwa [run] at h

theorem Ends.failure {failure : Failure} {after : σ} (h : act.Ends s post fails)
    (run : act s = (.error failure, after)) : fails failure after := by
  unfold Ends at h
  rwa [run] at h

theorem Ends.of_ok {a : α} (h : act.Ends s post fails) (run : (act s).1 = .ok a) :
    post a (act s).2 :=
  h.answer (Prod.ext run rfl)

theorem Ends.of_error {failure : Failure} (h : act.Ends s post fails)
    (run : (act s).1 = .error failure) : fails failure (act s).2 :=
  h.failure (Prod.ext run rfl)

theorem ends_run : act.Ends s (fun a after => act s = (.ok a, after))
    (fun failure after => act s = (.error failure, after)) := by
  unfold Ends
  rcases act s with ⟨_ | _, _⟩ <;> rfl

@[simp] theorem ends_pure {a : α} : Ends (pure a) s post fails ↔ post a s :=
  Iff.rfl

@[simp] theorem ends_throw {failure : Failure} :
    Ends (throw failure : Action σ α) s post fails ↔ fails failure s :=
  Iff.rfl

@[simp] theorem ends_abort {cause : Abort} :
    Ends (abort cause : Action σ α) s post fails ↔ fails (.abort cause) s :=
  Iff.rfl

theorem ends_bind {f : α → Action σ β} {post : β → σ → Prop} :
    Ends (act >>= f) s post fails ↔ act.Ends s (fun a s => (f a).Ends s post fails) fails := by
  simp only [Ends, bind_apply]
  rcases act s with ⟨_ | _, _⟩ <;> rfl

theorem ends_map {f : α → β} {post : β → σ → Prop} :
    Ends (f <$> act) s post fails ↔ act.Ends s (fun a s => post (f a) s) fails := by
  change Ends (act >>= fun a => pure (f a)) s post fails ↔ _
  exact ends_bind

theorem ends_discard {post : Unit → σ → Prop} :
    Ends (discard act) s post fails ↔ act.Ends s (fun _ s => post () s) fails := by
  change Ends ((fun _ => ()) <$> act) s post fails ↔ _
  exact ends_map

theorem ends_get {post : σ → σ → Prop} :
    Ends (get : Action σ σ) s post fails ↔ post s s :=
  Iff.rfl

theorem ends_check_ok {e : Except Abort α} {a : α} (h : e = .ok a) :
    Ends (check e) s post fails ↔ post a s := by
  rw [h]; rfl

theorem ends_first {act : Action σ α} {s : σ × τ} {post : α → σ × τ → Prop}
    {fails : Failure → σ × τ → Prop} :
    Ends (first act) s post fails ↔
      act.Ends s.1 (fun a after => post a (after, s.2)) (fun f after => fails f (after, s.2)) := by
  simp only [Ends, first]
  rcases act s.1 with ⟨_ | _, _⟩ <;> rfl

theorem ends_second {act : Action τ α} {s : σ × τ} {post : α → σ × τ → Prop}
    {fails : Failure → σ × τ → Prop} :
    Ends (second act) s post fails ↔
      act.Ends s.2 (fun a after => post a (s.1, after)) (fun f after => fails f (s.1, after)) := by
  simp only [Ends, second]
  rcases act s.2 with ⟨_ | _, _⟩ <;> rfl

theorem ends_ensuring {last : σ → σ} :
    Ends (act.ensuring last) s post fails ↔
      act.Ends s (fun a s => post a (last s)) (fun f s => fails f (last s)) := by
  simp only [Ends, ensuring]
  rcases act s with ⟨_ | _, _⟩ <;> rfl

theorem ends_lift {act : StateM σ α} :
    Ends (liftM act : Action σ α) s post fails ↔ post (act s).1 (act s).2 :=
  Iff.rfl

theorem adapt_apply {ε ε' : Type} (f : ε → ε') (act : ExceptT ε (StateM σ) α) (s : σ) :
    act.adapt f s = ((act s).1.mapError f, (act s).2) :=
  rfl

theorem ends_orAbort :
    Ends act.orAbort s post fails ↔ act.Ends s post fun f s => fails f.unhandled s := by
  unfold Ends orAbort
  rw [adapt_apply]
  rcases act s with ⟨_ | _, _⟩ <;> rfl

/-- Unless it aborts, the operation leaves behind a state as described. -/
def Leads (act : Action σ α) (s : σ) (post : σ → Prop) : Prop :=
  act.Ends s (fun _ after => post after) fun failure after => ¬ failure.Aborts → post after

theorem Leads.mono {post post' : σ → Prop} (h : act.Leads s post)
    (states : ∀ after, post after → post' after) : act.Leads s post' :=
  Ends.mono h (fun _ => states) fun _ after still calm => states after (still calm)

theorem Leads.after {post : σ → Prop} (h : act.Leads s post) {result : Except Failure α} {after : σ}
    (run : act s = (result, after)) (calm : ∀ cause, result ≠ .error (.abort cause)) :
    post after := by
  cases result with
  | ok a => exact Ends.answer h run
  | error failure =>
    apply Ends.failure h run
    rintro ⟨cause, rfl⟩
    exact calm cause rfl

theorem leads_map {f : α → β} {post : σ → Prop} : Leads (f <$> act) s post ↔ act.Leads s post :=
  ends_map

/-- To a caller that handles no faults every failure is an abort. -/
theorem Leads.orAbort {post : σ → Prop} (h : act.Leads s post) : act.orAbort.Leads s post := by
  refine ends_orAbort.mpr (Ends.mono h (fun _ _ => id) fun failure after _ calm => ?_)
  cases failure with
  | fault met => exact absurd ⟨_, rfl⟩ calm
  | abort cause => exact absurd ⟨_, rfl⟩ calm

end Action

theorem Env.ends_onKeys {δ α : Type} {act : Action (KeyEnv δ) α} {env : Env δ}
    {post : α → Env δ → Prop} {fails : Failure → Env δ → Prop} :
    Action.Ends (onKeys act) env post fails ↔
      act.Ends env.keys (fun a keys => post a { env with keys })
        (fun f keys => fails f { env with keys }) := by
  simp only [Action.Ends, onKeys]
  rcases act env.keys with ⟨_ | _, _⟩ <;> rfl

namespace Table

open GradualMap.Action

variable {K V δ α : Type} {s : Table K V × Env δ} {fails : Failure → Table K V × Env δ → Prop}

theorem ends_read {post : Table K V → Table K V × Env δ → Prop} :
    Ends read s post fails ↔ post s.1 s :=
  Iff.rfl

theorem ends_modify {f : Table K V → Table K V} {post : Unit → Table K V × Env δ → Prop} :
    Ends (modify f) s post fails ↔ post () (f s.1, s.2) :=
  Iff.rfl

theorem ends_setCurrent {index offset : Nat} {slot : Slot K V}
    {post : Unit → Table K V × Env δ → Prop} :
    Ends (setCurrent index offset slot) s post fails ↔
      post () ({ s.1 with current := s.1.current.setSlot index offset slot }, s.2) :=
  Iff.rfl

theorem ends_onKeys {act : Action (KeyEnv δ) α} {post : α → Table K V × Env δ → Prop} :
    Ends (onKeys act) s post fails ↔
      act.Ends s.2.keys (fun a keys => post a (s.1, { s.2 with keys }))
        (fun f keys => fails f (s.1, { s.2 with keys })) := by
  unfold onKeys
  rw [ends_second, Env.ends_onKeys]

end Table

namespace Map

open GradualMap.Action

variable {K V δ ρ α : Type} {map : Map K V} {env : Env δ}
  {fails : Failure → Map K V × Env δ → Prop}

theorem ends_read {s : Map K V × Env δ} {post : Map K V → Map K V × Env δ → Prop} :
    Ends read s post fails ↔ post s.1 s :=
  Iff.rfl

theorem ends_onTable {act : TableAction K V δ α} {post : α → Map K V × Env δ → Prop} :
    Ends (onTable act) (map, env) post fails ↔
      act.Ends (map.table, env) (fun a s => post a ({ map with table := s.1 }, s.2))
        (fun f s => fails f ({ map with table := s.1 }, s.2)) := by
  simp only [Ends, onTable]
  rcases act (map.table, env) with ⟨_ | _, _⟩ <;> rfl

theorem ends_onKeys {s : Map K V × Env δ} {act : Action (KeyEnv δ) α}
    {post : α → Map K V × Env δ → Prop} :
    Ends (onKeys act) s post fails ↔
      act.Ends s.2.keys (fun a keys => post a (s.1, { s.2 with keys }))
        (fun f keys => fails f (s.1, { s.2 with keys })) := by
  unfold onKeys
  rw [ends_second, Env.ends_onKeys]

theorem ends_writing (free : map.latch.held = false) {act : MapAction K V δ α}
    {post : α → Map K V × Env δ → Prop} :
    Ends (writing act) (map, env) post fails ↔
      act.Ends ({ map with latch := ⟨true⟩ }, env) (fun a s => post a (release s))
        (fun f s => fails f (release s)) := by
  have taken : map.latch.acquire = .ok ⟨true⟩ := by simp [Latch.acquire, free]
  unfold writing acquire
  rw [ends_bind, ends_bind, ends_read, ends_bind, ends_check_ok taken]
  exact ends_ensuring

theorem ends_writingWith (free : map.latch.held = false) {own : ρ}
    {act : Action ((Map K V × Env δ) × ρ) α} {post : α → (Map K V × Env δ) × ρ → Prop}
    {fails : Failure → (Map K V × Env δ) × ρ → Prop} :
    Ends (writingWith act) ((map, env), own) post fails ↔
      act.Ends (({ map with latch := ⟨true⟩ }, env), own) (fun a s => post a (release s.1, s.2))
        (fun f s => fails f (release s.1, s.2)) := by
  have taken : map.latch.acquire = .ok ⟨true⟩ := by simp [Latch.acquire, free]
  unfold writingWith acquire
  rw [ends_bind, ends_first, ends_bind, ends_read, ends_bind, ends_check_ok taken]
  exact ends_ensuring

theorem ends_retain (free : map.latch.held = false) {scheme : KeyScheme K δ} {own : ρ}
    {f : K → V → StateM ρ (V × Except String Bool)} {post : Unit → (Map K V × Env δ) × ρ → Prop}
    {fails : Failure → (Map K V × Env δ) × ρ → Prop} :
    Ends (retain scheme f) ((map, env), own) post fails ↔
      Ends (Table.retain scheme f) ((map.table, env), own)
        (fun a s => post a (({ map with table := s.1.1, latch := ⟨false⟩ }, s.1.2), s.2))
        (fun f s => fails f (({ map with table := s.1.1, latch := ⟨false⟩ }, s.1.2), s.2)) := by
  unfold retain
  rw [ends_writingWith free]
  simp only [Ends]
  rcases Table.retain scheme f ((map.table, env), own) with ⟨_ | _, _⟩ <;> rfl

end Map

open GradualMap.Action in
theorem KeyM.ends_toAction {δ α : Type} {act : KeyM δ α} {env : KeyEnv δ}
    {post : α → KeyEnv δ → Prop} {fails : Failure → KeyEnv δ → Prop} :
    Ends act.toAction env post fails ↔
      match act env with
      | (.ok a, after) => post a after
      | (.error text, after) => fails (.abort (.raised text)) after := by
  unfold Ends KeyM.toAction
  rw [adapt_apply]
  rcases act env with ⟨_ | _, _⟩ <;> rfl

open GradualMap.Action in
theorem KeyM.yields_toAction {δ α : Type} {act : KeyM δ α} {env : KeyEnv δ} {a : α}
    (h : (act env).1 = .ok a) : Yields act.toAction env fun answer _ => answer = a := by
  unfold Yields
  rw [ends_toAction]
  generalize act env = run at *
  rcases run with ⟨_ | _, _⟩
  · cases h
  · exact Except.ok.inj h

open GradualMap.Action in
theorem KeyEnv.draw_yields {δ : Type} (env : KeyEnv δ) :
    Yields KeyEnv.draw env fun _ _ => True :=
  (KeyM.yields_toAction (a := env.draws.next.1) rfl).mono fun _ _ _ => trivial

end GradualMap
