import GradualMap.Key.Scheme
import GradualMap.Key.Hasher

/-!
Floating-point keys under IEEE equality. The zeros are one key, and a NaN equals nothing, itself
included, so that every insert of a NaN adds an entry that no look-up finds.
-/

namespace GradualMap

/-- A binary interchange format: a sign bit, an exponent field and a fraction field. -/
structure FloatFormat where
  exponentBits : Nat
  fractionBits : Nat
  deriving DecidableEq, Repr

namespace FloatFormat

def binary32 : FloatFormat := ⟨8, 23⟩

def binary64 : FloatFormat := ⟨11, 52⟩

def width (format : FloatFormat) : Nat :=
  format.exponentBits + format.fractionBits + 1

def bias (format : FloatFormat) : Nat :=
  (1 <<< (format.exponentBits - 1)) - 1

/-- The bits of infinity; every larger magnitude is a NaN. -/
def infinity (format : FloatFormat) : Nat :=
  ((1 <<< format.exponentBits) - 1) <<< format.fractionBits

end FloatFormat

/-- A float by its bits. -/
structure Floating (format : FloatFormat) where
  bits : BitVec format.width
  deriving DecidableEq, Repr

namespace Floating

variable {format : FloatFormat}

def isNegative (x : Floating format) : Bool :=
  x.bits.msb

/-- The bits but for the sign. -/
def magnitude (x : Floating format) : Nat :=
  (x.bits.setWidth (format.width - 1)).toNat

def isNaN (x : Floating format) : Bool :=
  format.infinity < x.magnitude

def isZero (x : Floating format) : Bool :=
  x.magnitude = 0

/-- Equality as IEEE defines it. -/
def equal (a b : Floating format) : Bool :=
  !a.isNaN && !b.isNaN && (a = b || a.isZero && b.isZero)

/-- The float nearest to a number within the range of the format, a tie going to the even
fraction. -/
def ofNat (format : FloatFormat) (n : Nat) : Floating format :=
  if n = 0 then ⟨0⟩ else
    let exponent := n.log2
    let fraction := format.fractionBits
    let significand :=
      if exponent ≤ fraction then n <<< (fraction - exponent)
      else
        let unit := 1 <<< (exponent - fraction)
        let kept := n / unit
        let lost := 2 * (n % unit)
        if unit < lost ∨ lost = unit ∧ kept % 2 = 1 then kept + 1 else kept
    -- The leading bit of the significand adds one to the exponent field, and so does a carry.
    ⟨BitVec.ofNat _ (((format.bias + exponent - 1) <<< fraction) + significand)⟩

end Floating

namespace Key

/-- The zeros hash alike, a NaN hashes at random, and any other float by its bits. -/
def floating (format : FloatFormat) (hasher : Hasher) : KeyScheme (Floating format) Unit where
  traits := { reflexive := false, replacesKey := true }
  hash key seed := do
    let bytes ←
      if key.isNaN then (littleEndian 4 ·.toNat) <$> KeyM.draw
      else if key.isZero then pure [0]
      else pure (littleEndian (format.width / 8) key.bits.toNat)
    return .ok (hasher.hash (littleEndian 8 seed.toNat ++ bytes))
  equal a b := return a.equal b

end Key

end GradualMap
