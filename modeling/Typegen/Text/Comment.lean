import Typegen.Text.Blank

/-!
# Descriptions as comments

A description becomes the lines of a comment; inside a block comment the closing mark is broken up.
-/

namespace Typegen.Text

/-- The lines of a text; a text without line breaks is one line. -/
def lines (s : String) : List String := (s.toList.splitOn '\n').map String.ofList

/-- The lines of a description without blanks at its end; an empty or missing one has none. -/
def commentLines : Option String → List String
  | none => []
  | some s =>
    if s = "" then [] else ((trimRight s.toList).splitOn '\n').map String.ofList

/-- A text in which a backslash divides every closing mark of a block comment. -/
def breakClosing : List Char → List Char
  | '*' :: '/' :: cs => '*' :: '\\' :: '/' :: breakClosing cs
  | c :: cs => c :: breakClosing cs
  | [] => []

/-- A text that can stand inside a block comment. -/
def escapeBlockComment (s : String) : String := String.ofList (breakClosing s.toList)

/-- A text with every line break replaced by a space. -/
def onOneLine (s : String) : String :=
  String.ofList (s.toList.map fun c => if c = '\n' then ' ' else c)

/-- A text in which every run of three quotes is escaped. -/
def breakQuotes : List Char → List Char
  | '"' :: '"' :: '"' :: cs => '\\' :: '"' :: '\\' :: '"' :: '\\' :: '"' :: breakQuotes cs
  | c :: cs => c :: breakQuotes cs
  | [] => []

/-- A text with escaped runs of three quotes. -/
def escapeTripleQuotes (s : String) : String := String.ofList (breakQuotes s.toList)

end Typegen.Text
