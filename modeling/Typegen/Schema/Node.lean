import Typegen.Json.Pointer
import Typegen.Schema.Form

/-!
# Schema nodes

A document that has been checked is a tree of nodes, one for every schema in it, together with a
table of named definitions.  A node that refers to a definition holds its name only, so the tree is
finite even when definitions refer to each other.
-/

namespace Typegen.Schema

/-- What nodes of all forms have. -/
structure Info where
  /-- The place of the schema in its document. -/
  path : Pointer
  /-- Whether null is accepted as well. -/
  nullable : Bool
  /-- The name of the definition that the schema is the body of. -/
  definition : Option String
  /-- Remarks that do not constrain the data. -/
  metadata : List (String × Json)

/-- The description among the remarks, if it is a text. -/
def Info.description (info : Info) : Option String :=
  match Json.get? info.metadata "description" with
  | some (.string s) => some s
  | _ => none

/-- A schema. -/
inductive Node where
  /-- Accepts everything. -/
  | empty (info : Info)
  /-- Accepts what a definition accepts. -/
  | ref (info : Info) (target : String)
  /-- A primitive type. -/
  | type (info : Info) (primitive : Primitive)
  /-- One of some strings. -/
  | enum (info : Info) (values : List String)
  /-- An array. -/
  | elements (info : Info) (item : Node)
  /-- An object with the given keys, others being tolerated or not. -/
  | properties (info : Info) (required optional : List (String × Node)) (additional : Bool)
  /-- An object with arbitrary keys. -/
  | values (info : Info) (item : Node)
  /-- An object whose shape is told by the value of one key. -/
  | discriminator (info : Info) (tag : String) (mapping : List (String × Node))

namespace Node

/-- What the node has in common with all others. -/
def info : Node → Info
  | empty i => i
  | ref i _ => i
  | type i _ => i
  | enum i _ => i
  | elements i _ => i
  | properties i _ _ _ => i
  | values i _ => i
  | discriminator i _ _ => i

/-- The form of a node. -/
def form : Node → Form
  | empty _ => .empty
  | ref _ _ => .ref
  | type _ _ => .type
  | enum _ _ => .enum
  | elements _ _ => .elements
  | properties _ _ _ _ => .properties
  | values _ _ => .values
  | discriminator _ _ _ => .discriminator

/-- The place of a node. -/
def path (n : Node) : Pointer := n.info.path

/-- Whether a node accepts null as well. -/
def nullable (n : Node) : Bool := n.info.nullable

/-- The description of a node. -/
def description (n : Node) : Option String := n.info.description

/-- Whether a node is always declared under a name of its own. -/
def isNamed (n : Node) : Bool := n.form.isNamed

/-- The nodes directly below a node. -/
def children : Node → List Node
  | elements _ item => [item]
  | properties _ required optional _ => required.map Prod.snd ++ optional.map Prod.snd
  | values _ item => [item]
  | discriminator _ _ mapping => mapping.map Prod.snd
  | _ => []

/-- The definition that a node refers to. -/
def target? : Node → Option String
  | ref _ t => some t
  | _ => none

end Node

end Schema

/-- A checked document: its definitions in order, and the schema of the document itself. -/
structure Schema where
  definitions : List (String × Schema.Node)
  root : Schema.Node

namespace Schema

/-- The body of a definition. -/
def definition? (s : Schema) (name : String) : Option Node := s.definitions.lookup name

end Schema

end Typegen
