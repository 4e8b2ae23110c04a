/-!
# Forms and primitive types

A schema has one of eight forms.  The form with a `type` keyword names one of eleven primitive
types.
-/

namespace Typegen.Schema

/-- The eight forms of a schema. -/
inductive Form where
  | empty
  | ref
  | type
  | enum
  | elements
  | properties
  | values
  | discriminator
  deriving DecidableEq, Repr

namespace Form

/-- All forms. -/
def all : List Form := [empty, ref, type, enum, elements, properties, values, discriminator]

/-- The name of a form. -/
def label : Form → String
  | empty => "empty"
  | ref => "ref"
  | type => "type"
  | enum => "enum"
  | elements => "elements"
  | properties => "properties"
  | values => "values"
  | discriminator => "discriminator"

/-- The form with the given name. -/
def ofLabel? (s : String) : Option Form := all.find? fun f => f.label = s

/-- The keywords of which any one makes a schema have this form. -/
def selectors : Form → List String
  | empty => []
  | properties => ["properties", "optionalProperties"]
  | f => [f.label]

/-- The keywords that belong to this form. -/
def keywords : Form → List String
  | properties => ["properties", "optionalProperties", "additionalProperties"]
  | discriminator => ["discriminator", "mapping"]
  | f => f.selectors

/-- Whether a schema of this form is always declared under a name of its own. -/
def isNamed : Form → Bool
  | enum => true
  | properties => true
  | discriminator => true
  | _ => false

end Form

/-- The primitive types. -/
inductive Primitive where
  | boolean
  | string
  | timestamp
  | float32
  | float64
  | int8
  | uint8
  | int16
  | uint16
  | int32
  | uint32
  deriving DecidableEq, Repr

namespace Primitive

/-- All primitive types. -/
def all : List Primitive :=
  [boolean, string, timestamp, float32, float64, int8, uint8, int16, uint16, int32, uint32]

/-- The name of a primitive type. -/
def label : Primitive → String
  | boolean => "boolean"
  | string => "string"
  | timestamp => "timestamp"
  | float32 => "float32"
  | float64 => "float64"
  | int8 => "int8"
  | uint8 => "uint8"
  | int16 => "int16"
  | uint16 => "uint16"
  | int32 => "int32"
  | uint32 => "uint32"

/-- The primitive type with the given name. -/
def ofLabel? (s : String) : Option Primitive := all.find? fun t => t.label = s

end Primitive

end Typegen.Schema
