/-!
Why an operation gives no answer. A `Fault` is an answer of its own, which a caller can act on; an
`Abort` ends the operation where it stands and leaves behind whatever was done until then.
-/

namespace GradualMap

/-- A key that its scheme will not hash, by the name of its type. -/
structure Refusal where
  typeName : String
  deriving DecidableEq, Repr

def Refusal.message (refusal : Refusal) : String :=
  "hash of unhashable type " ++ refusal.typeName

inductive Fault where
  | refused (refusal : Refusal)
  /-- No memory for an array of so many buckets. -/
  | noMemory (buckets : Nat)
  deriving DecidableEq, Repr

def Fault.message : Fault → String
  | .refused refusal => refusal.message
  | .noMemory buckets => s!"failed to allocate a bucket array of {buckets} buckets"

inductive Abort where
  /-- The table is not in a shape its own operations produce. -/
  | corrupt
  /-- A key that hashed when it was stored is refused now. -/
  | storedKeyRefused (refusal : Refusal)
  /-- A fault met by an operation whose caller does not handle faults. -/
  | unhandled (fault : Fault)
  | concurrentWrites
  | readDuringWrite
  | iterationDuringWrite
  /-- A cursor was stepped on a table it was not made from. -/
  | foreignCursor
  /-- A bucket index past the end of its array. -/
  | outOfRange (size index : Nat)
  /-- An overflow bucket was to be linked behind a bucket that does not end its chain. -/
  | tailLinked
  /-- A count or a size would fall below zero. -/
  | underflow
  /-- A bucket count of `2 ^ 64` or more. -/
  | shiftTooFar
  /-- One insert restarted growth more often than any sound table can ask for. -/
  | growthRestarts
  /-- Raised by the key scheme or by a closure of the caller, with its text. -/
  | raised (text : String)
  deriving DecidableEq, Repr

def Abort.message : Abort → String
  | .corrupt => "bad map state"
  | .storedKeyRefused refusal => "stored key no longer hashes: " ++ refusal.message
  | .unhandled fault => fault.message
  | .concurrentWrites => "concurrent map writes"
  | .readDuringWrite => "concurrent map read and map write"
  | .iterationDuringWrite => "concurrent map iteration and map write"
  | .foreignCursor => "cursor used with a different map"
  | .outOfRange size index => s!"index out of bounds: the len is {size} but the index is {index}"
  | .tailLinked => "assertion failed: self.get(tail).overflow.is_none()"
  | .underflow => "attempt to subtract with overflow"
  | .shiftTooFar => "attempt to shift left with overflow"
  | .growthRestarts => "growth restarted without end"
  | .raised text => text

inductive Failure where
  | fault (fault : Fault)
  | abort (cause : Abort)
  deriving DecidableEq, Repr

/-- A caller that does not handle faults is stopped by them. -/
def Failure.unhandled : Failure → Failure
  | .fault met => .abort (.unhandled met)
  | .abort cause => .abort cause

end GradualMap
