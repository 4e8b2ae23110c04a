import Typegen.Text.Hex

/-!
# Quoted strings

A string as a literal in double quotes that holds printable ASCII only.  A quote and a backslash
get a backslash, five control characters have short escapes, and every other character outside
printable ASCII is written as one `\u` escape per UTF-16 unit.
-/

namespace Typegen.Text

/-- The UTF-16 units of a code point. -/
def utf16Units (n : Nat) : List Nat :=
  if n < 0x10000 then [n]
  else [0xd800 + (n - 0x10000) / 0x400, 0xdc00 + (n - 0x10000) % 0x400]

/-- A UTF-16 unit as an escape. -/
def unitEscape (n : Nat) : List Char := '\\' :: 'u' :: hexDigits 4 n

/-- A character inside a quoted string. -/
def quotedChar (c : Char) : List Char :=
  match c.toNat with
  | 0x22 => ['\\', '"']
  | 0x5c => ['\\', '\\']
  | 0x08 => ['\\', 'b']
  | 0x09 => ['\\', 't']
  | 0x0a => ['\\', 'n']
  | 0x0c => ['\\', 'f']
  | 0x0d => ['\\', 'r']
  | n => if 0x20 ≤ n && n < 0x7f then [c] else (utf16Units n).flatMap unitEscape

/-- A text between double quotes. -/
def quotedChars (cs : List Char) : List Char := '"' :: cs.flatMap quotedChar ++ ['"']

/-- A string as a literal. -/
def quote (s : String) : String := String.ofList (quotedChars s.toList)

end Typegen.Text
