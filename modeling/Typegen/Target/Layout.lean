import Typegen.Declaration.Basic
import Typegen.Failure
import Typegen.Text.Case
import Typegen.Text.Comment
import Typegen.Text.Quoted

/-!
# Layout of generated files

A declaration is written as lines.  A file is made of its heading and its declarations, with a
separator between those that are not empty and a line break at the end.
-/

namespace Typegen.Target

/-- What rendering depends on besides the declarations. -/
structure Setting where
  /-- The name of the root type. -/
  rootName : Json
  /-- The package, as the configuration gives it. -/
  package : Json := .string ""
  /-- The output directory, as the configuration gives it. -/
  outDir : Json := .string ""
  /-- The first line of every file. -/
  comment : Option String := none
  /-- The declarations of the file by name. -/
  declared : List (String × Declaration) := []

/-- The name of the root type in small letters joined by underscores. -/
def Setting.snakeName (s : Setting) : Except Failure String :=
  match s.rootName with
  | .string name => .ok (Text.Case.snake.convert name)
  | v => .error (.noSuchMember v "replace")

/-- A generated file. -/
structure RenderedFile where
  /-- The path below the output directory. -/
  path : String
  content : String
  deriving DecidableEq, Repr

/-- A text without line breaks at its ends. -/
def trimNewlines (s : String) : String :=
  String.ofList (Text.dropRightWhile (· = '\n') (s.toList.dropWhile (· = '\n')))

/-- Lines as one text, without line breaks at its ends. -/
def layout (lines : List String) : String := trimNewlines ("\n".intercalate lines)

/-- The parts of a file that are not empty, with a separator between them. -/
def joinParts (separator : String) (parts : List String) : String :=
  separator.intercalate (parts.filter fun p => p ≠ "") ++ "\n"

/-- A text that is given and not empty. -/
def nonEmpty : Option String → Option String
  | some s => if s = "" then none else some s
  | none => none

/-- The comment and the remarks at the top of a file, behind a comment mark. -/
def headingLines (mark : String) (comment : Option String) (notes : List String) : List String :=
  ((nonEmpty comment).toList.map (mark ++ " " ++ ·)) ++ notes.map (mark ++ " Note: " ++ ·)

/-- A description as lines behind a comment mark. -/
def lineComments (mark : String) (description : Option String) : List String :=
  (Text.commentLines description).map (mark ++ " " ++ ·)

/-- A description as a block comment over several lines. -/
def blockComment (description : Option String) : List String :=
  match nonEmpty description with
  | none => []
  | some s =>
    ["/**"] ++ (Text.commentLines (some (Text.escapeBlockComment s))).map (" * " ++ ·) ++ [" */"]

/-- A description as a block comment on one line, behind an indentation. -/
def shortBlockComment (indent : String) (description : Option String) : List String :=
  match nonEmpty description with
  | none => []
  | some s => [indent ++ "/** " ++ Text.onOneLine (Text.escapeBlockComment s) ++ " */"]

/-- A string literal, or `null` when there is none. -/
def quoteOrNull : Option String → String
  | some s => Text.quote s
  | none => "null"

/-- Items with a text behind each but the last. -/
def separated (separator : String) : List String → List String
  | [] => []
  | [s] => [s]
  | s :: rest => (s ++ separator) :: separated separator rest

end Typegen.Target
