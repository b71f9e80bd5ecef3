/-!
What a table reports about itself while it works.
-/

namespace GradualMap

inductive Event where
  | growthStarted (oldExponent exponent count overflowCount : Nat) (sameSize : Bool)
  | overflowLinked (overflowCount overflowBuckets : Nat)
  | growthComplete (exponent count : Nat) (sameSize : Bool)
  /-- The last entry was removed and the hash seed drawn anew. -/
  | emptied
  | cleared (exponent : Nat)
  deriving DecidableEq, Repr

/-- One line: level, message, then `field=value` pairs. -/
def Event.render : Event → String
  | .growthStarted oldExponent exponent count overflowCount sameSize =>
    s!"DEBUG starting table grow old_b={oldExponent} b={exponent} count={count} "
      ++ s!"noverflow={overflowCount} same_size={sameSize}"
  | .overflowLinked overflowCount overflowBuckets =>
    s!"TRACE overflow bucket linked noverflow={overflowCount} overflow_buckets={overflowBuckets}"
  | .growthComplete exponent count sameSize =>
    s!"DEBUG table grow complete b={exponent} count={count} same_size={sameSize}"
  | .emptied => "TRACE table emptied, hash seed reset"
  | .cleared exponent => s!"TRACE table cleared b={exponent}"

end GradualMap
