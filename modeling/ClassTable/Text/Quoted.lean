/-!
# Quoted text

The written form of a piece of source text inside a diagnostic: double quotes around it, and an
escape for each character that would end the quotation, start an escape, or not show on a line.
Five control characters and NUL have short escapes; every other control character is written as
its code point in lower-case hexadecimal between braces. All other characters stand for
themselves, the single quote included.

Two sorts of characters beyond the control characters would have to be escaped in the same way and
are not: those that do not print, such as U+200B, and those that extend the character before them.
Both are given by tables of Unicode properties, which are left out here.
-/

namespace ClassTable.Text

/-- The control characters: below the space, and from DEL to the end of the second control block. -/
def isControl (c : Char) : Bool :=
  c.toNat < 0x20 || (0x7f ≤ c.toNat && c.toNat < 0xa0)

/-- The written form of one character inside double quotes. Characters beyond the control characters
stand for themselves, also those that do not print or that extend the character before them. -/
def escape (c : Char) : List Char :=
  match c with
  | '"' => ['\\', '"']
  | '\\' => ['\\', '\\']
  | '\t' => ['\\', 't']
  | '\r' => ['\\', 'r']
  | '\n' => ['\\', 'n']
  | '\x00' => ['\\', '0']
  | c =>
    if isControl c then
      ['\\', 'u', '\x7b'] ++ Nat.toDigits 16 c.toNat ++ ['\x7d']
    else
      [c]

/-- The text between double quotes, escaped. -/
def quote (s : String) : String :=
  String.ofList ('"' :: s.toList.flatMap escape ++ ['"'])

end ClassTable.Text
