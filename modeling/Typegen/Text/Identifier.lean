import Typegen.Text.Words

/-!
# Plain identifiers

An identifier that every target language accepts: an ASCII letter or underscore, followed by ASCII
letters, digits and underscores.
-/

namespace Typegen.Text

/-- The characters that an identifier may begin with. -/
def isIdentifierHead (c : Char) : Bool := isCapital c || isSmall c || c == '_'

/-- The characters that may follow. -/
def isIdentifierTail (c : Char) : Bool := isIdentifierHead c || isDigit c

/-- An identifier as a whole. -/
def isPlainIdentifier : List Char → Bool
  | [] => false
  | c :: cs => isIdentifierHead c && cs.all isIdentifierTail

/-- A text without the line break that ends it, if one does. -/
def dropFinalNewline (cs : List Char) : List Char :=
  if cs.getLast? = some '\n' then cs.dropLast else cs

/-- An identifier, with or without a line break at its end. -/
def isIdentifier (s : String) : Bool := isPlainIdentifier (dropFinalNewline s.toList)

end Typegen.Text
