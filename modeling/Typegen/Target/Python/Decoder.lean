import Typegen.Declaration.Basic

/-!
# Decoders of fields

The data library decodes a nested class by its fields, without looking at the class's own decoding
function, and it does not look through names for types.  A field whose type mentions a union or such
a name therefore gets a decoding function, with names replaced by what they stand for.
-/

namespace Typegen.Target.Python

/-- The declarations of a file by name. -/
abbrev Declared := List (String × Declaration)

/-- Whether a declared type needs a decoder. -/
def isOpaqueName (declared : Declared) (name : String) : Bool :=
  match declared.lookup name with
  | some d => d.isUnion || d.isAlias
  | none => false

/-- The names for type expressions among the declarations. -/
def aliasNames (declared : Declared) : List String :=
  (declared.filter fun e => e.2.isAlias).map Prod.fst

/-- The expression that decodes `value` as a type; none when the value is used as it is.  A name for
a type is replaced once: where it comes back to itself there is no finite replacement. -/
def decode (declared : Declared) (unexpanded : List String) (t : TypeExpr) (value : String)
    (depth : Nat) : Except Failure (Option String) :=
  match t with
  | ⟨.optional, _, args, _, _, _, _, _⟩ =>
    match args with
    | item :: _ => do
      let body ← decode declared unexpanded item value depth
      return body.map fun b => "None if " ++ value ++ " is None else " ++ b
    | [] => .error .outOfRange
  | ⟨.array, _, args, _, _, _, _, _⟩ =>
    match args with
    | item :: _ => do
      let x := s!"x{depth}"
      let body ← decode declared unexpanded item x (depth + 1)
      return body.map fun b => "[" ++ b ++ " for " ++ x ++ " in " ++ value ++ "]"
    | [] => .error .outOfRange
  | ⟨.map, _, args, _, _, _, _, _⟩ =>
    match args with
    | item :: _ => do
      let k := s!"k{depth}"
      let x := s!"x{depth}"
      let body ← decode declared unexpanded item x (depth + 1)
      return body.map fun b =>
        "\x7b" ++ k ++ ": " ++ b ++ " for " ++ k ++ ", " ++ x ++ " in " ++ value ++ ".items()\x7d"
    | [] => .error .outOfRange
  | ⟨.named, name, _, _, _, _, _, _⟩ =>
    match declared.lookup name with
    | some (.struct _ _ _ _) => .ok (some (name ++ ".from_dict(" ++ value ++ ")"))
    | some (.union _ _ _ _) => .ok (some (name ++ ".from_dict(" ++ value ++ ")"))
    | some (.enum _ _) => .ok (some (name ++ "(" ++ value ++ ")"))
    | some (.synonym _ target) =>
      if name ∈ unexpanded then decode declared (unexpanded.erase name) target value depth
      else .ok none
    | none => .ok none
  | _ => .ok none
termination_by (unexpanded.length, sizeOf t)
decreasing_by
  · exact Prod.Lex.right _ (by simp; omega)
  · exact Prod.Lex.right _ (by simp; omega)
  · exact Prod.Lex.right _ (by simp; omega)
  · rename_i h
    have := List.length_erase_of_mem h
    have := List.length_pos_of_mem h
    exact Prod.Lex.left _ _ (by omega)

/-- The decoding function of a field; none when the field needs none. -/
def fieldDecoder (declared : Declared) (f : Field) : Except Failure (Option String) :=
  if f.type.walk.any fun t => t.kind = .named && isOpaqueName declared t.name then do
    let body ← decode declared (aliasNames declared) f.type "v" 0
    return body.map ("lambda v: " ++ ·)
  else .ok none

end Typegen.Target.Python
