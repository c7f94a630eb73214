import StateHistory.Text.Printable

/-!
# Quoted text

A text in quotes as diagnostics show it: quotes, backslashes and characters that cannot be shown are
escaped.
-/

namespace StateHistory.Text

def hexDigits (n : Nat) : List Char := Nat.toDigits 16 n

/-- A character inside a quoted text. -/
def quotedChar (c : Char) : List Char :=
  match c with
  | '\x00' => ['\\', '0']
  | '\t' => ['\\', 't']
  | '\n' => ['\\', 'n']
  | '\r' => ['\\', 'r']
  | '"' => ['\\', '"']
  | '\\' => ['\\', '\\']
  | c =>
    if isPrintable c && !isExtending c then [c]
    else ['\\', 'u', '\x7b'] ++ hexDigits c.toNat ++ ['\x7d']

/-- A text in quotes. -/
def quoted (s : String) : String := String.ofList ('"' :: s.toList.flatMap quotedChar ++ ['"'])

end StateHistory.Text
