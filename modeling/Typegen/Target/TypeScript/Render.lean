import Typegen.Declaration.Spelling
import Typegen.Target.Layout
import Typegen.Text.Identifier
import Typegen.Text.Infix

/-!
# Declarations in TypeScript

Interfaces and type aliases that describe the data itself: the members of an interface are the keys
of the data, an enumeration is a union of string literals, and a tagged union is a union of its
branches.
-/

namespace Typegen.Target.TypeScript

/-- How type expressions are written.  A member that may be absent has a question mark of its own, so
only null is part of a type. -/
def style : TypeStyle where
  literal := Text.quote
  array item :=
    (if Text.occursIn [' ', '|', ' '] item.toList then "(" ++ item ++ ")" else item) ++ "[]"
  map item := "\x7b [key: string]: " ++ item ++ " \x7d"
  optional null _ item := if null then item ++ " | null" else item

/-- The type of an expression. -/
def renderType (t : TypeExpr) : Except Failure String := t.spell style

/-- The key of a member: an identifier as it is, and anything else quoted. -/
def memberKey (name : String) : String := if Text.isIdentifier name then name else Text.quote name

/-- The lines of a member of an interface. -/
def memberLines (f : Field) : Except Failure (List String) := do
  let type ← renderType f.type
  return shortBlockComment "  " f.description ++
    ["  " ++ memberKey f.name ++ (if f.mayBeAbsent then "?" else "") ++ ": " ++ type ++ ";"]

/-- The lines of a declaration. -/
def declarationLines (d : Declaration) : Except Failure (List String) :=
  let doc := blockComment d.description
  match d with
  | .struct h fields _ _ => do
    let members ← fields.mapM memberLines
    return doc ++ ["export interface " ++ h.name ++ " \x7b"] ++ members.flatten ++ ["\x7d"]
  | .enum h members =>
    .ok (doc ++ ["export type " ++ h.name ++ " = " ++
      " | ".intercalate (members.map fun m => Text.quote m.2) ++ ";"])
  | .union h _ _ variants =>
    .ok (doc ++ ["export type " ++ h.name ++ " = " ++
      " | ".intercalate (variants.map Prod.snd) ++ ";"])
  | .synonym h target => do
    return doc ++ ["export type " ++ h.name ++ " = " ++ (← renderType target) ++ ";"]

/-- The lines at the top of the file. -/
def heading (s : Setting) (notes : List String) : List String := headingLines "//" s.comment notes

/-- The path of the file. -/
def outputPath (s : Setting) : String := s.rootName.plain ++ ".ts"

end Typegen.Target.TypeScript
