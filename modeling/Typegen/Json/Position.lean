import Typegen.Json.Reader

/-!
# Faults in words

A fault in the spelling of a JSON text is reported with the line, the column and the number of the
character at which it was noticed.
-/

namespace Typegen.Json

/-- The wording of a problem. -/
def Problem.text : Problem → String
  | .expectingValue => "Expecting value"
  | .expectingName => "Expecting property name enclosed in double quotes"
  | .expectingColon => "Expecting ':' delimiter"
  | .expectingComma => "Expecting ',' delimiter"
  | .unterminatedString => "Unterminated string starting at"
  | .controlCharacter => "Invalid control character at"
  | .badEscape => "Invalid \\escape"
  | .badUnicodeEscape => "Invalid \\uXXXX escape"
  | .extraData => "Extra data"
  | .byteOrderMark => "Unexpected UTF-8 BOM (decode using utf-8-sig)"
  | .longInteger excess =>
    let digits := maxDigits + 1 + excess
    s!"Exceeds the limit ({maxDigits} digits) for integer string conversion: value has {digits} " ++
      "digits; use sys.set_int_max_str_digits() to increase the limit"

/-- The line and the column, counted from one, of the character after the given ones. -/
def lineAndColumn (before : List Char) : Nat × Nat :=
  (before.count '\n' + 1, (before.reverse.takeWhile (· != '\n')).length + 1)

/-- A problem with its place in a text, the place being given by what is left of the text. -/
def Problem.placed (p : Problem) (left : Nat) (cs : List Char) : String :=
  let offset := cs.length - left
  let (line, column) := lineAndColumn (cs.take offset)
  p.text ++ s!": line {line} column {column} (char {offset})"

end Typegen.Json
