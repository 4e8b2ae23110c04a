import Typegen.Declaration.TypeExpr

/-!
# Spelling of type expressions

A target writes a type expression by a few choices: how a literal, an array, a map and an optional
value look.  Everything else is written by its name.
-/

namespace Typegen

/-- The choices by which a target writes type expressions. -/
structure TypeStyle where
  /-- A literal with the given string. -/
  literal : String → String
  /-- An array of items that are written as the given text. -/
  array : String → String
  /-- A map to items that are written as the given text. -/
  map : String → String
  /-- An optional value: whether it may be null, and the kind and text of what it holds. -/
  optional : Bool → TypeKind → String → String

/-- The text of a type expression.  An array, a map or an optional value that holds nothing has no
text. -/
def TypeExpr.spell (style : TypeStyle) (t : TypeExpr) : Except Failure String :=
  match t with
  | ⟨kind, name, args, _, null, _, _, _⟩ =>
    match kind, args with
    | .any, _ => .ok name
    | .primitive, _ => .ok name
    | .named, _ => .ok name
    | .literal, _ => .ok (style.literal name)
    | .array, item :: _ => do return style.array (← spell style item)
    | .map, item :: _ => do return style.map (← spell style item)
    | .optional, item :: _ => do return style.optional null item.kind (← spell style item)
    | _, [] => .error .outOfRange

end Typegen
