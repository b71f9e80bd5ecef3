import GradualMap.Text.Visible

/-!
Texts between quotes, on one line.
-/

namespace GradualMap.Text

/-- A quote and a backslash stand behind a backslash, and so do the letters for the common
controls; what cannot be seen is given by its code point. -/
def escape (c : Char) : List Char :=
  match c with
  | '\x00' => ['\\', '0']
  | '\t' => ['\\', 't']
  | '\r' => ['\\', 'r']
  | '\n' => ['\\', 'n']
  | '"' => ['\\', '"']
  | '\\' => ['\\', '\\']
  | c =>
    if isVisible c then [c]
    else ['\\', 'u', '\x7b'] ++ Nat.toDigits 16 c.toNat ++ ['\x7d']

def quoted (text : String) : String :=
  String.ofList ('"' :: (text.toList.flatMap escape ++ ['"']))

end GradualMap.Text
