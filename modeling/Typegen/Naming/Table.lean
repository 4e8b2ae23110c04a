import Typegen.Failure
import Typegen.Json.Pointer

/-!
# Name tables

The identifiers of a whole schema: of its definitions, its root, and of what every node declares.
-/

namespace Typegen.Naming

/-- The identifier of a field and the key it stands for. -/
structure FieldName where
  identifier : String
  key : String
  deriving DecidableEq, Repr

/-- What is named at one node. -/
inductive Names where
  /-- An enumeration: its type, and the identifiers of its values. -/
  | enum (type : String) (members : List (String × String))
  /-- A type with fields, in order. -/
  | struct (type : String) (fields : List FieldName)
  /-- A union: its type and its tag. -/
  | union (type : String) (tag : FieldName)
  deriving Repr

namespace Names

/-- The identifier of the type. -/
def type : Names → String
  | enum t _ => t
  | struct t _ => t
  | union t _ => t

/-- The members of an enumeration. -/
def members? : Names → Option (List (String × String))
  | enum _ ms => some ms
  | _ => none

/-- The fields of a type with fields. -/
def fields? : Names → Option (List FieldName)
  | struct _ fs => some fs
  | _ => none

/-- The tag of a union. -/
def tag? : Names → Option FieldName
  | union _ t => some t
  | _ => none

end Names

/-- The identifiers of a schema. -/
structure Table where
  /-- The identifier of the root type. -/
  root : String
  /-- The identifiers of the definitions, in order. -/
  definitions : List (String × String)
  /-- What is named at the nodes, in the order in which they are visited. -/
  nodes : List (Pointer × Names)

namespace Table

/-- A part of what is named at the nodes. -/
def select {α : Type} (t : Table) (part : Names → Option α) : List (Pointer × α) :=
  t.nodes.filterMap fun (p, n) => (part n).map (p, ·)

/-- The part named at one place. -/
def at? {α : Type} (t : Table) (part : Names → Option α) (path : Pointer) : Except Failure α :=
  match (t.nodes.lookup path).bind part with
  | some a => .ok a
  | none => .error (.missingKey path.text)

/-- The identifier of a definition. -/
def definition (t : Table) (name : String) : Except Failure String :=
  match t.definitions.lookup name with
  | some id => .ok id
  | none => .error (.missingKey name)

/-- The type declared at a place. -/
def typeName (t : Table) (path : Pointer) : Except Failure String :=
  t.at? (fun n => some n.type) path

/-- The fields named at a place; none when there are none. -/
def fieldsOf (t : Table) (path : Pointer) : List FieldName :=
  ((t.nodes.lookup path).bind Names.fields?).getD []

/-- The field for a key at a place. -/
def fieldName (t : Table) (path : Pointer) (key : String) : Except Failure FieldName := do
  let fields ← t.at? Names.fields? path
  match fields.find? fun f => f.key = key with
  | some f => return f
  | none => .error (.missingKey key)

/-- The tag of the union at a place. -/
def tagField (t : Table) (path : Pointer) : Except Failure FieldName := t.at? Names.tag? path

/-- The identifier of a value of the enumeration at a place. -/
def enumMember (t : Table) (path : Pointer) (value : String) : Except Failure String := do
  let members ← t.at? Names.members? path
  match members.lookup value with
  | some id => return id
  | none => .error (.missingKey value)

end Table

end Typegen.Naming
