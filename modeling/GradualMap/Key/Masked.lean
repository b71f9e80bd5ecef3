import GradualMap.Key.Scheme

/-!
A scheme over words that decides by masks which keys are refused, which are NaN-like and which
bits count for hash and equality. It counts its calls and can be set to fail.
-/

namespace GradualMap.Key

structure MaskedState where
  /-- Keys with a bit in here are refused. -/
  refuse : UInt64 := 0
  /-- How many comparisons succeed before every further one fails. -/
  trap : Option Nat := none
  hashCalls : Nat := 0
  equalCalls : Nat := 0
  deriving DecidableEq, Repr

structure Masked where
  traits : KeyTraits := {}
  /-- The bits that are hashed. -/
  hashed : UInt64 := 0xffffffffffffffff
  /-- The bits that are compared. -/
  compared : UInt64 := 0xffffffffffffffff
  /-- Keys with a bit in here equal nothing and hash at random. -/
  nanLike : UInt64 := 0
  /-- The seed is mixed into the hash. -/
  seeded : Bool := false
  refusedType : String := "func"
  deriving DecidableEq, Repr

namespace Masked

def hash (config : Masked) (key seed : UInt64) : KeyM MaskedState (Except Refusal UInt64) := do
  modify fun env => { env with own.hashCalls := env.own.hashCalls + 1 }
  if key &&& (← get).own.refuse != 0 then
    return .error ⟨config.refusedType⟩
  if key &&& config.nanLike != 0 then
    return .ok (← KeyM.draw)
  let plain := key &&& config.hashed
  return .ok (if config.seeded then mix (plain ^^^ seed) else plain)

def equal (config : Masked) (a b : UInt64) : KeyM MaskedState Bool := do
  modify fun env => { env with own.equalCalls := env.own.equalCalls + 1 }
  match (← get).own.trap with
  | none => pure ()
  | some 0 => throw "trap"
  | some (n + 1) => modify fun env => { env with own.trap := some n }
  return (a ||| b) &&& config.nanLike == 0 && a &&& config.compared == b &&& config.compared

def scheme (config : Masked) : KeyScheme UInt64 MaskedState where
  traits := config.traits
  hash := config.hash
  equal := config.equal

end Masked

end GradualMap.Key
