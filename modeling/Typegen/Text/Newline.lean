/-!
# Line breaks

A text file may end its lines in any of three ways, which are read as one.
-/

namespace Typegen.Text

/-- A text with every line break written as a line feed. -/
def unifyNewlines : List Char → List Char
  | '\r' :: '\n' :: cs => '\n' :: unifyNewlines cs
  | '\r' :: cs => '\n' :: unifyNewlines cs
  | c :: cs => c :: unifyNewlines cs
  | [] => []

/-- A text without the carriage returns that stand before a line feed. -/
def dropReturns : List Char → List Char
  | '\r' :: '\n' :: cs => '\n' :: dropReturns cs
  | c :: cs => c :: dropReturns cs
  | [] => []

end Typegen.Text
