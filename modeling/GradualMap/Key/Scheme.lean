import GradualMap.Action
import GradualMap.Random.Draws

/-!
How a table hashes and compares its keys. A scheme sees the random stream and a state of its own,
never the table; whether two keys are the same is its word alone.
-/

namespace GradualMap

structure KeyTraits where
  /-- Every key equals itself. Without it some keys may be NaN-like: their hash cannot be
  reproduced and no look-up finds them again. -/
  reflexive : Bool := true
  /-- Some keys may be refused, so that a look-up hashes its key even in an empty table. -/
  mayRefuse : Bool := false
  /-- Writing through an equal key replaces the stored key as well. -/
  replacesKey : Bool := false
  deriving DecidableEq, Repr

/-- What a scheme works on: the random stream and its own state. -/
structure KeyEnv (δ : Type) where
  draws : Draws
  own : δ
  deriving DecidableEq, Repr

/-- A scheme may give up with a text. -/
abbrev KeyM (δ : Type) : Type → Type := ExceptT String (StateM (KeyEnv δ))

namespace KeyM

variable {δ α : Type}

def draw : KeyM δ UInt64 := do
  let (word, draws) := (← get).draws.next
  modify fun env => { env with draws }
  return word

/-- The text of a scheme that gives up ends the operation that asked. -/
def toAction (act : KeyM δ α) : Action (KeyEnv δ) α :=
  act.adapt fun text => .abort (.raised text)

end KeyM

/-- The next word of the random stream. -/
def KeyEnv.draw {δ : Type} : Action (KeyEnv δ) UInt64 :=
  KeyM.draw.toAction

structure KeyScheme (K δ : Type) where
  traits : KeyTraits := {}
  hash : K → UInt64 → KeyM δ (Except Refusal UInt64)
  equal : K → K → KeyM δ Bool

namespace KeyScheme

variable {K δ : Type} (scheme : KeyScheme K δ)

/-- Hashes a key handed in from outside: a refusal is a fault. -/
def hashKey (key : K) (seed : UInt64) : Action (KeyEnv δ) UInt64 := do
  match ← (scheme.hash key seed).toAction with
  | .ok hash => return hash
  | .error refusal => throw (.fault (.refused refusal))

/-- Hashes a key that is already stored: it hashed once, so a refusal now aborts. -/
def rehash (key : K) (seed : UInt64) : Action (KeyEnv δ) UInt64 := do
  match ← (scheme.hash key seed).toAction with
  | .ok hash => return hash
  | .error refusal => Action.abort (.storedKeyRefused refusal)

def same (a b : K) : Action (KeyEnv δ) Bool :=
  (scheme.equal a b).toAction

/-- Whether a look-up of the key can find it. A reflexive scheme is not asked. -/
def selfEqual (key : K) : Action (KeyEnv δ) Bool :=
  if scheme.traits.reflexive then pure true else scheme.same key key

end KeyScheme

end GradualMap
