/-!
Hashes of byte strings.
-/

namespace GradualMap

/-- The 64-bit FNV-1a hash, unless it is overridden by a constant under which all keys collide. -/
structure Hasher where
  constant : Option UInt64 := none
  deriving DecidableEq, Repr

def fnv1a (bytes : List UInt8) : UInt64 :=
  bytes.foldl (fun hash byte => (hash ^^^ byte.toUInt64) * 0x100000001b3) 0xcbf29ce484222325

def Hasher.hash (hasher : Hasher) (bytes : List UInt8) : UInt64 :=
  hasher.constant.getD (fnv1a bytes)

/-- The first `count` bytes of a number, lowest first. -/
def littleEndian (count value : Nat) : List UInt8 :=
  (List.range count).map fun i => (value >>> (8 * i)).toUInt8

end GradualMap
