import GradualMap.Decimal.Shortest
import GradualMap.Key.Floating

/-!
The text of a float: the fewest digits that read back as it, positional for common magnitudes.
-/

namespace GradualMap

/-- Decimal exponents from `positionalFrom` up to `positionalBelow` are written with a point, at
least one digit on each side of it; the others with an exponent. -/
structure FloatText where
  positionalFrom : Int
  positionalBelow : Int
  nan : String
  infinity : String
  deriving DecidableEq, Repr

def FloatText.listing : FloatText where
  positionalFrom := -4
  positionalBelow := 16
  nan := "NaN"
  infinity := "inf"

def digitsText (digits : List Nat) : String :=
  String.ofList (digits.map Nat.digitChar)

namespace Decimal

def zerosText (count : Int) : String :=
  String.ofList (List.replicate count.toNat '0')

def positional (decimal : Decimal) : String :=
  let whole := decimal.digits.take decimal.point.toNat
  let rest := decimal.digits.drop decimal.point.toNat
  let wholeText :=
    if decimal.point ≤ 0 then "0"
    else digitsText whole ++ zerosText (decimal.point - whole.length)
  let restText := if rest.isEmpty then "0" else zerosText (-decimal.point) ++ digitsText rest
  wholeText ++ "." ++ restText

def scientific (decimal : Decimal) : String :=
  let rest := decimal.digits.drop 1
  digitsText (decimal.digits.take 1)
    ++ (if rest.isEmpty then "" else "." ++ digitsText rest)
    ++ "e" ++ toString (decimal.point - 1)

def text (style : FloatText) (decimal : Decimal) : String :=
  let exponent := decimal.point - 1
  if style.positionalFrom ≤ exponent ∧ exponent < style.positionalBelow then decimal.positional
  else decimal.scientific

end Decimal

namespace Floating

variable {format : FloatFormat}

/-- The numbers nearer to a nonzero finite float than to any other. The neighbour below a power of
two is only half as far as the one above; an even fraction wins a tie. -/
def rounding (x : Floating format) : Rounding :=
  let leading := 1 <<< format.fractionBits
  let field := x.magnitude >>> format.fractionBits
  let fraction := x.magnitude % leading
  let significand := if field = 0 then fraction else fraction + leading
  -- The value is `significand * 2 ^ (scale - bias - fractionBits)`.
  let scale := max field 1
  let point := format.bias + format.fractionBits + 2
  let unit := 1 <<< (point - scale)
  let stretch := 1 <<< (scale - point)
  let narrow := fraction = 0 ∧ 1 < field
  { value := 4 * significand * stretch
    low := (4 * significand - (if narrow then 1 else 2)) * stretch
    high := (4 * significand + 2) * stretch
    unit
    closed := significand % 2 = 0 }

def text (style : FloatText) (x : Floating format) : String :=
  if x.isNaN then style.nan
  else
    let sign := if x.isNegative then "-" else ""
    if x.magnitude = format.infinity then sign ++ style.infinity
    else if x.isZero then sign ++ "0.0"
    else sign ++ x.rounding.shortest.text style

end Floating

end GradualMap
