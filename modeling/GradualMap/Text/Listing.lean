import GradualMap.Text.Number
import GradualMap.Text.Quoted
import GradualMap.Traversal.Walk

/-!
A map written out on one line.
-/

namespace GradualMap.Text

/-- Pairs in braces, as they come. -/
def braced (pairs : List (String × String)) : String :=
  "\x7b" ++ String.intercalate ", " (pairs.map fun (key, value) => key ++ ": " ++ value) ++ "\x7d"

/-- The entries of a map in the order of a fresh walk. -/
def listing {K V δ : Type} (scheme : KeyScheme K δ) (map : Map K V) (keyText : K → String)
    (valueText : V → String) : Action (KeyEnv δ) String := do
  let pairs ← map.toList scheme
  return braced (pairs.map fun (key, value) => (keyText key, valueText value))

end GradualMap.Text
