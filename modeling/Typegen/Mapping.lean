import Typegen.Declaration.Basic
import Typegen.Naming.Table
import Typegen.Schema.Reference
import Typegen.Target.Basic

/-!
# From schemas to declarations

Every node is mapped to the type expression of its values, together with the declarations that the
expression needs.  A reference becomes the name of its definition.  A definition or root that is not
declared by its own form is declared as a name for its type.
-/

namespace Typegen.Mapping

open Schema (Node Form Info)

/-- What the mapping of a node depends on. -/
structure Scope where
  backend : Backend
  names : Naming.Table
  schema : Schema
  graph : ReferenceGraph
  /-- The definition whose body is mapped; none for the root. -/
  owner : Option String := none
  /-- Whether the node is an item of an array or a map. -/
  inContainer : Bool := false

namespace Scope

/-- The failure of a node that the target cannot express. -/
def unsupported {α : Type} (s : Scope) (n : Node) (cause : Cause) : Except Failure α :=
  .error (.report ⟨cause,
    { path := some n.path.text, definition := s.owner, form := some n.form.label,
      target := some s.backend.name }⟩)

/-- The node's form can be expressed. -/
def checkForm (s : Scope) (n : Node) : Except Failure Unit :=
  if s.backend.forms.contains n.form then .ok ()
  else s.unsupported n (.unsupportedForm n.form s.backend.name)

/-- The type of a reference.  It is null when its definition can be, and it is stored behind a
reference when it leads back into its own definition other than through a container. -/
def mapRef (s : Scope) (target : String) : Except Failure TypeExpr := do
  let closesCycle := match s.owner with
    | some owner => s.graph.inCycle owner target
    | none => false
  let expr := TypeExpr.named (← s.names.definition target) (some target)
    (closesCycle && !s.inContainer)
  if ← s.schema.isNullable target then return expr.withOptionality false true
  else return expr

/-- The remark on a primitive type whose spelling loses something. -/
def lossNote (s : Scope) (info : Info) (p : Schema.Primitive) : List String :=
  match s.backend.target.loss p with
  | some reason =>
    [info.path.text ++ ": " ++ p.label ++ " mapped to " ++ s.backend.target.spelling p ++ " (" ++
      reason ++ ")"]
  | none => []

/-- The type of a primitive type. -/
def mapPrimitive (s : Scope) (info : Info) (p : Schema.Primitive) : Except Failure TypeExpr :=
  if s.backend.primitives.contains p then
    .ok (.primitive (s.backend.target.spelling p) (s.lossNote info p))
  else s.unsupported (.type info p) (.unsupportedType p s.backend.name)

/-- The declaration of an enumeration. -/
def enumDeclaration (s : Scope) (info : Info) (values : List String) :
    Except Failure Declaration := do
  let name ← s.names.typeName info.path
  let members ← values.mapM fun v => do return (← s.names.enumMember info.path v, v)
  return .enum ⟨name, info.path.text, info.description⟩ members

/-- The declaration of a union. -/
def unionDeclaration (s : Scope) (info : Info) (mapping : List (String × Node)) :
    Except Failure Declaration := do
  let tag ← s.names.tagField info.path
  let name ← s.names.typeName info.path
  let variants ← mapping.mapM fun (value, branch) => do
    return (value, ← s.names.typeName branch.path)
  return .union ⟨name, info.path.text, info.description⟩ tag.identifier tag.key variants

/-- The tag field of a branch. -/
def tagField (s : Scope) (path : Pointer) (tag value : String) : Except Failure Field := do
  let name ← s.names.fieldName path tag
  return { name := name.identifier, wire := tag, type := .literal value, isTag := true,
           tagValue := some value }

end Scope

/-- The union that a struct is a branch of. -/
structure Branch where
  /-- The name of the union. -/
  union : String
  /-- The key of the tag. -/
  tag : String
  /-- The value of the tag. -/
  value : String

/-- The declaration of a struct. -/
def structDeclaration (s : Scope) (info : Info) (branch : Option Branch) (fields : List Field)
    (additional : Bool) : Except Failure Declaration := do
  let name ← s.names.typeName info.path
  return .struct ⟨name, info.path.text, info.description⟩ fields (branch.map (·.union)) additional

/-- The type of a node that may be null. -/
def nullableType (info : Info) (t : TypeExpr) : TypeExpr :=
  if info.nullable then t.withOptionality false true else t

mutual

/-- The type of a node's values, and the declarations it needs. -/
def mapNode (s : Scope) (node : Node) : Except Failure (TypeExpr × List Declaration) :=
  match node with
  | .empty info => do
    s.checkForm node
    return (nullableType info (.any s.backend.target.anyType), [])
  | .ref info target => do
    s.checkForm node
    return (nullableType info (← s.mapRef target), [])
  | .type info p => do
    s.checkForm node
    return (nullableType info (← s.mapPrimitive info p), [])
  | .enum info values => do
    s.checkForm node
    let d ← s.enumDeclaration info values
    return (nullableType info (.named d.name), [d])
  | .elements info item => do
    s.checkForm node
    let (t, ds) ← mapNode { s with inContainer := true } item
    return (nullableType info (.array t), ds)
  | .values info item => do
    s.checkForm node
    let (t, ds) ← mapNode { s with inContainer := true } item
    return (nullableType info (.map t), ds)
  | .properties info required optional additional => do
    s.checkForm node
    let (first, nested) ← mapFields { s with inContainer := false } info.path false required
    let (second, more) ← mapFields { s with inContainer := false } info.path true optional
    let d ← structDeclaration s info none (first ++ second) additional
    return (nullableType info (.named d.name), d :: nested ++ more)
  | .discriminator info tag mapping => do
    s.checkForm node
    let union ← s.unionDeclaration info mapping
    let ds ← mapBranches s union.name tag mapping
    return (nullableType info (.named union.name), union :: ds)

/-- The fields of some keys, and the declarations they need. -/
def mapFields (s : Scope) (path : Pointer) (isOptional : Bool) :
    List (String × Node) → Except Failure (List Field × List Declaration)
  | [] => .ok ([], [])
  | (key, child) :: rest => do
    let (t, ds) ← mapNode s child
    let name ← s.names.fieldName path key
    let (fields, nested) ← mapFields s path isOptional rest
    let field : Field :=
      { name := name.identifier, wire := key,
        type := if isOptional then t.withOptionality true false else t,
        required := !isOptional, description := child.description }
    return (field :: fields, ds ++ nested)

/-- The declarations of a branch of a union. -/
def mapBranch (s : Scope) (branch : Branch) (node : Node) : Except Failure (List Declaration) :=
  match node with
  | .properties info required optional additional => do
    let tagField ← s.tagField info.path branch.tag branch.value
    let (first, nested) ← mapFields { s with inContainer := false } info.path false required
    let (second, more) ← mapFields { s with inContainer := false } info.path true optional
    let d ← structDeclaration s info (some branch) (tagField :: first ++ second) additional
    return d :: nested ++ more
  | other => s.unsupported other (.unsupportedForm other.form s.backend.name)

/-- The declarations of the branches of a union. -/
def mapBranches (s : Scope) (union tag : String) :
    List (String × Node) → Except Failure (List Declaration)
  | [] => .ok []
  | (value, branch) :: rest => do
    let ds ← mapBranch s ⟨union, tag, value⟩ branch
    let others ← mapBranches s union tag rest
    return ds ++ others

end

/-- The declarations of a definition. -/
def mapDefinition (s : Scope) (name : String) (body : Node) :
    Except Failure (List Declaration) := do
  let (t, ds) ← mapNode { s with owner := some name, inContainer := false } body
  if body.isNamed then return ds
  else
    return ds ++
      [.synonym ⟨← s.names.definition name, body.path.text, body.description⟩ (← t.unwrap)]

/-- The type of the root, and the declarations of the root. -/
def mapRoot (s : Scope) : Except Failure (TypeExpr × List Declaration) := do
  let root := s.schema.root
  let (t, ds) ← mapNode { s with owner := none, inContainer := false } root
  if root.isNamed then return (t, ds)
  else return (t, ds ++ [.synonym ⟨s.names.root, root.path.text, root.description⟩ t])

end Mapping

/-- The declarations of a schema for a backend. -/
structure Mapped where
  /-- The name of the backend. -/
  target : String
  rootType : TypeExpr
  declarations : List Declaration
  notes : List String

/-- Map a schema: the definitions in order, then the root. -/
def mapSchema (backend : Backend) (names : Naming.Table) (schema : Schema)
    (graph : ReferenceGraph) : Except Failure Mapped := do
  let scope : Mapping.Scope := { backend, names, schema, graph }
  let bodies ← schema.definitions.mapM fun (name, body) => Mapping.mapDefinition scope name body
  let (rootType, ds) ← Mapping.mapRoot scope
  let declarations := bodies.flatten ++ ds
  return ⟨backend.name, rootType, declarations, Declaration.collectNotes declarations [rootType]⟩

end Typegen
