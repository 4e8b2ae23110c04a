import Typegen.Json.Basic
import Typegen.Decimal.Display
import Typegen.Text.Display

/-!
# JSON values in messages

The text by which a message shows a value that it complains about.
-/

namespace Typegen.Json

/-- A piece of a string in a message, inside the given quotes. -/
def displayPiece (quote : Char) : Piece → List Char
  | .char c => Text.displayChar quote c
  | .unit n => '\\' :: 'u' :: Text.hexDigits 4 n

/-- A string as a message shows it, halves of surrogate pairs included. -/
def displayPieces (ps : List Piece) : String :=
  let chars := ps.filterMap fun
    | .char c => some c
    | .unit _ => none
  let q := Text.displayQuote chars
  String.ofList (q :: ps.flatMap (displayPiece q) ++ [q])

/-- Texts with a comma between them. -/
def commaSeparated (parts : List String) : String := ", ".intercalate parts

mutual

/-- A value as a message shows it. -/
def display : Json → String
  | null => "None"
  | bool b => if b then "True" else "False"
  | int n => toString n
  | float x => x.display
  | string s => Text.display s
  | array items => "[" ++ commaSeparated (displayItems items) ++ "]"
  | object members => "\x7b" ++ commaSeparated (displayMembers members) ++ "\x7d"

/-- The items of an array as a message shows them. -/
def displayItems : List Json → List String
  | [] => []
  | v :: rest => display v :: displayItems rest

/-- The members of an object as a message shows them. -/
def displayMembers : List (String × Json) → List String
  | [] => []
  | (k, v) :: rest => (Text.display k ++ ": " ++ display v) :: displayMembers rest

end

/-- A value inserted into a text: a string as it is, anything else as a message shows it. -/
def plain : Json → String
  | string s => s
  | v => display v

end Typegen.Json
