import Typegen.Text.Hex
import Typegen.Text.Printable

/-!
# Strings in messages

A string is shown in a message between single quotes, or between double quotes when it holds a
single quote and no double one.  Characters that are not printable are shown as escapes, by the
shortest of three widths.
-/

namespace Typegen.Text

/-- The quote that surrounds a text in a message. -/
def displayQuote (cs : List Char) : Char :=
  if cs.contains '\x27' && !cs.contains '"' then '"' else '\x27'

/-- A character in a message, inside the given quotes. -/
def displayChar (quote c : Char) : List Char :=
  if c = quote || c = '\\' then ['\\', c]
  else if c = '\t' then ['\\', 't']
  else if c = '\n' then ['\\', 'n']
  else if c = '\r' then ['\\', 'r']
  else if isPrintable c then [c]
  else if c.toNat < 0x100 then '\\' :: 'x' :: hexDigits 2 c.toNat
  else if c.toNat < 0x10000 then '\\' :: 'u' :: hexDigits 4 c.toNat
  else '\\' :: 'U' :: hexDigits 8 c.toNat

/-- A text as a message shows it. -/
def displayChars (cs : List Char) : List Char :=
  let q := displayQuote cs
  q :: cs.flatMap (displayChar q) ++ [q]

/-- A string as a message shows it. -/
def display (s : String) : String := String.ofList (displayChars s.toList)

end Typegen.Text
