/-!
The fewest decimal digits that tell a number from its neighbours.
-/

namespace GradualMap

/-- `0.d₁d₂… × 10 ^ point`. -/
structure Decimal where
  digits : List Nat
  point : Int
  deriving DecidableEq, Repr

/-- A positive rational `value / unit` and the open or closed interval of the rationals that are
read back as it. -/
structure Rounding where
  value : Nat
  low : Nat
  high : Nat
  unit : Nat
  closed : Bool
  deriving DecidableEq, Repr

namespace Rounding

/-- Whether `num / den` is read back as the value. -/
def holds (r : Rounding) (num den : Nat) : Bool :=
  if r.closed then r.low * den ≤ num * r.unit && num * r.unit ≤ r.high * den
  else r.low * den < num * r.unit && num * r.unit < r.high * den

/-- The number of digits before the point, or, for a value below one, minus the number of zeros
behind it. -/
def point (r : Rounding) : Int :=
  let whole := r.value / r.unit
  if whole ≠ 0 then (Nat.toDigits 10 whole).length
  else -(zeros r.unit (r.value * 10) : Int)
where
  /-- How often a nonzero `num` must be multiplied by ten to reach `den`. -/
  zeros (den num : Nat) : Nat :=
    if num = 0 ∨ den ≤ num then 0 else zeros den (num * 10) + 1
  termination_by den - num
  decreasing_by omega

/-- The decimal with `count` digits that is nearest to the value among those that are read back as
it, the larger of two equally near. -/
def withDigits (r : Rounding) (count : Nat) : Option Decimal :=
  let point := r.point
  let shift := point - count
  -- One step of the grid is `step / unit`.
  let stride := Nat.pow 10 shift.toNat
  let step := r.unit * stride
  let scale := Nat.pow 10 (-shift).toNat
  let below := r.value * scale / step
  let rest := r.value * scale % step
  let reads n := r.holds (n * stride) scale
  let chosen :=
    match reads below, reads (below + 1) with
    | true, true => some (if 2 * rest < step then below else below + 1)
    | true, false => some below
    | false, true => some (below + 1)
    | false, false => none
  chosen.map fun n =>
    let digits := (Nat.toDigits 10 n).map fun c => c.toNat - '0'.toNat
    ⟨digits, point + (digits.length - count : Int)⟩

/-- Seventeen digits tell any two floats of 64 bits apart. -/
def maxDigits : Nat := 17

/-- The decimal with the fewest digits that is read back as the value. -/
def shortest (r : Rounding) : Decimal :=
  let found := ((List.range maxDigits).findSome? fun i => r.withDigits (i + 1)).getD ⟨[0], 0⟩
  { found with digits := (found.digits.reverse.dropWhile (· = 0)).reverse }

end Rounding

end GradualMap
