import GradualMap.Failure

/-!
Operations on a state that may fail. The state survives a failure as the operation left it: what a
failed write did before it failed stays done.
-/

namespace GradualMap

abbrev Action (σ : Type) : Type → Type := ExceptT Failure (StateM σ)

namespace Action

variable {σ τ α β : Type}

def abort (cause : Abort) : Action σ α :=
  throw (.abort cause)

/-- Lifts a computation that neither reads nor writes the state. -/
def check : Except Abort α → Action σ α
  | .ok a => pure a
  | .error cause => abort cause

/-- Runs an operation on the first part of a state. -/
def first (act : Action σ α) : Action (σ × τ) α := fun (s, t) =>
  let (result, s) := act s
  (result, (s, t))

/-- Runs an operation on the second part of a state. -/
def second (act : Action τ α) : Action (σ × τ) α := fun (s, t) =>
  let (result, t) := act t
  (result, (s, t))

/-- Applies `last` to the state after `act`, whether it fails or not. -/
def ensuring (act : Action σ α) (last : σ → σ) : Action σ α := fun s =>
  let (result, s) := act s
  (result, last s)

/-- The same operation for a caller that does not handle faults. -/
def orAbort (act : Action σ α) : Action σ α :=
  act.adapt Failure.unhandled

theorem bind_apply (act : Action σ α) (f : α → Action σ β) (s : σ) :
    (act >>= f) s =
      match act s with
      | (.ok a, s) => f a s
      | (.error failure, s) => (.error failure, s) := by
  change (match act s with | (r, s) => ExceptT.bindCont f r s) = _
  rcases act s with ⟨_ | _, _⟩ <;> rfl

end Action

end GradualMap
