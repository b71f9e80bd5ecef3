import GradualMap.Key.Scheme
import GradualMap.Key.Hasher

/-!
Schemes for keys with decidable equality, which hash the seed and then the bytes of the key.
-/

namespace GradualMap.Key

variable {K : Type}

def standard [DecidableEq K] (hasher : Hasher) (bytes : K → List UInt8) : KeyScheme K Unit where
  hash key seed := return .ok (hasher.hash (littleEndian 8 seed.toNat ++ bytes key))
  equal a b := return decide (a = b)

def word (hasher : Hasher) : KeyScheme UInt64 Unit :=
  standard hasher fun key => littleEndian 8 key.toNat

/-- A byte that no text holds ends the text, so that no key's bytes begin another's. -/
def text (hasher : Hasher) : KeyScheme String Unit :=
  standard hasher fun key => key.toUTF8.toList ++ [0xff]

end GradualMap.Key
