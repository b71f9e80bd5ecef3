import GradualMap.Failure

/-!
The write latch of a map. It excludes nobody; it makes a second writer, and a reader amid a write,
stop at once.
-/

namespace GradualMap

structure Latch where
  held : Bool := false
  deriving DecidableEq, Repr

namespace Latch

/-- Takes the latch for a write; a second writer is stopped. -/
def acquire (latch : Latch) : Except Abort Latch :=
  if latch.held then .error .concurrentWrites else .ok ⟨true⟩

def release (_ : Latch) : Latch :=
  ⟨false⟩

/-- Stops with `cause` if a write is under way. -/
def check (latch : Latch) (cause : Abort) : Except Abort Unit :=
  if latch.held then .error cause else .ok ()

end Latch

end GradualMap
