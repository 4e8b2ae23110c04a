import Typegen.Failure

/-!
# Type expressions

How a value is spelled where it is used, before any target writes it down.  An expression is a tree:
arrays, maps and optional values have the expression of what they hold as their first argument.
-/

namespace Typegen

/-- The kinds of type expressions. -/
inductive TypeKind where
  /-- Any value. -/
  | any
  /-- A primitive type of the target, by its spelling. -/
  | primitive
  /-- A declared type, by its name. -/
  | named
  /-- A sequence. -/
  | array
  /-- A map from strings. -/
  | map
  /-- A value that may be absent or null. -/
  | optional
  /-- One string. -/
  | literal
  deriving DecidableEq, Repr

namespace TypeKind

/-- All kinds. -/
def all : List TypeKind := [any, primitive, named, array, map, optional, literal]

/-- The name of a kind. -/
def label : TypeKind → String
  | any => "any"
  | primitive => "primitive"
  | named => "named"
  | array => "array"
  | map => "map"
  | optional => "optional"
  | literal => "literal"

/-- The kind with the given name. -/
def ofLabel? (s : String) : Option TypeKind := all.find? fun k => k.label = s

end TypeKind

/-- A type expression. -/
structure TypeExpr where
  kind : TypeKind
  /-- The spelling of a primitive type, the name of a declared one, or the string of a literal. -/
  name : String := ""
  /-- What an array, a map or an optional value holds. -/
  args : List TypeExpr := []
  /-- Whether the key of an optional value may be missing. -/
  mayBeAbsent : Bool := false
  /-- Whether an optional value may be null. -/
  mayBeNull : Bool := false
  /-- The definition that a declared type comes from, when it is referred to. -/
  definition : Option String := none
  /-- Whether a target that stores values inline has to store this one behind a reference. -/
  byReference : Bool := false
  /-- Remarks on what the target cannot express. -/
  notes : List String := []

namespace TypeExpr

/-- Any value, as the target spells it. -/
def any (spelling : String) : TypeExpr := { kind := .any, name := spelling }

/-- A primitive type. -/
def primitive (spelling : String) (notes : List String := []) : TypeExpr :=
  { kind := .primitive, name := spelling, notes := notes }

/-- A declared type. -/
def named (name : String) (definition : Option String := none) (byReference : Bool := false) :
    TypeExpr :=
  { kind := .named, name := name, definition := definition, byReference := byReference }

/-- A sequence. -/
def array (item : TypeExpr) : TypeExpr := { kind := .array, args := [item] }

/-- A map from strings. -/
def map (item : TypeExpr) : TypeExpr := { kind := .map, args := [item] }

/-- One string. -/
def literal (value : String) : TypeExpr := { kind := .literal, name := value }

/-- A value that may be absent or null.  An optional value is not wrapped again. -/
def withOptionality (t : TypeExpr) (absent null : Bool) : TypeExpr :=
  if t.kind = .optional then
    { t with mayBeAbsent := t.mayBeAbsent || absent, mayBeNull := t.mayBeNull || null }
  else { kind := .optional, args := [t], mayBeAbsent := absent, mayBeNull := null }

/-- What an array, a map or an optional value holds. -/
def inner (t : TypeExpr) : Except Failure TypeExpr :=
  match t.args with
  | a :: _ => .ok a
  | [] => .error .outOfRange

/-- The expression without the wrapper of an optional value. -/
def unwrap (t : TypeExpr) : Except Failure TypeExpr :=
  if t.kind = .optional then t.inner else .ok t

mutual

/-- An expression and all expressions inside it, from the outside in and from left to right. -/
def walk : TypeExpr → List TypeExpr
  | t@⟨_, _, args, _, _, _, _, _⟩ => t :: walkAll args

/-- The expressions inside a list of expressions. -/
def walkAll : List TypeExpr → List TypeExpr
  | [] => []
  | t :: rest => walk t ++ walkAll rest

end

/-- All remarks on an expression. -/
def allNotes (t : TypeExpr) : List String := t.walk.flatMap (·.notes)

end TypeExpr

end Typegen
