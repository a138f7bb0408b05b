/-!
# Escaped text

Text inside a message stays on one line of printable ASCII.
-/

namespace Offside.Text

def hexadecimal (n : Nat) : List Char := Nat.toDigits 16 n

/-- Quotes and the backslash get a backslash, the common blanks their letter, and whatever else is
not printable ASCII its code point. -/
def escapeChar (c : Char) : List Char :=
  match c with
  | '\t' => ['\\', 't']
  | '\r' => ['\\', 'r']
  | '\n' => ['\\', 'n']
  | '\'' => ['\\', '\'']
  | '"' => ['\\', '"']
  | '\\' => ['\\', '\\']
  | c =>
    if 0x20 ≤ c.toNat ∧ c.toNat ≤ 0x7e then [c]
    else ['\\', 'u', '\x7b'] ++ hexadecimal c.toNat ++ ['\x7d']

def escape (text : String) : String := String.ofList (text.toList.flatMap escapeChar)

end Offside.Text
