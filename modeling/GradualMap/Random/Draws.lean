/-!
The random stream a table draws from: words forced from outside come first, in order, and then
the splitmix64 sequence of a seed.
-/

namespace GradualMap

/-- The finalizer of splitmix64: a bijection on words in which every input bit reaches every
output bit. -/
def mix (z : UInt64) : UInt64 :=
  let z := (z ^^^ (z >>> 30)) * 0xbf58476d1ce4e5b9
  let z := (z ^^^ (z >>> 27)) * 0x94d049bb133111eb
  z ^^^ (z >>> 31)

/-- A stream of random words. Any finite run of draws can be prescribed through `forced`, so a
statement about every `Draws` is a statement about every outcome of the draws. -/
structure Draws where
  forced : List UInt64 := []
  state : UInt64 := 0
  /-- How many words were drawn so far. -/
  taken : Nat := 0
  deriving DecidableEq, Repr

/-- A forced word leaves the generator where it is. -/
def Draws.next (draws : Draws) : UInt64 × Draws :=
  match draws.forced with
  | word :: rest => (word, { draws with forced := rest, taken := draws.taken + 1 })
  | [] =>
    let state := draws.state + 0x9e3779b97f4a7c15
    (mix state, { draws with state := state, taken := draws.taken + 1 })

/-- Prescribes the words to come, after those already prescribed. -/
def Draws.force (draws : Draws) (words : List UInt64) : Draws :=
  { draws with forced := draws.forced ++ words }

end GradualMap
