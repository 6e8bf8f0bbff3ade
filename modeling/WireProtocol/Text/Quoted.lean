import WireProtocol.Text.Visibility

/-!
# Quoted text

A text in double quotes on one line: a backslash stands before the characters that would end the
quotes or the line, and a character that does not show itself is given by its code point.
-/

set_option autoImplicit false

namespace WireProtocol.Text

/-- A character by its code point. -/
def codePoint (c : Char) : List Char :=
  '\\' :: 'u' :: '\x7b' :: Nat.toDigits 16 c.toNat ++ ['\x7d']

/-- A character as it stands inside quotes. -/
def quotedChar (c : Char) : List Char :=
  match c with
  | '\x00' => ['\\', '0']
  | '\t' => ['\\', 't']
  | '\r' => ['\\', 'r']
  | '\n' => ['\\', 'n']
  | '\\' => ['\\', '\\']
  | '"' => ['\\', '"']
  | c => if c.toNat < 0x7f && 0x20 ≤ c.toNat || !isJoining c && isPrintable c then [c] else codePoint c

/-- A text in quotes. -/
def quoted (s : String) : String := String.ofList ('"' :: s.toList.flatMap quotedChar ++ ['"'])

end WireProtocol.Text
