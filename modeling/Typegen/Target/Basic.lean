import Typegen.Schema.Form
import Typegen.Target.TypeScript.Words
import Typegen.Target.Go.Words
import Typegen.Target.Java.Words
import Typegen.Target.Python.Words

/-!
# Targets

The languages that declarations can be written in, how each spells primitive types, and which of
these spellings lose something.  A backend is a target under a name, with naming rules of its own and
possibly without some forms and types.
-/

namespace Typegen

/-- The shipped targets. -/
inductive Target where
  | typescript
  | go
  | java
  | python
  deriving DecidableEq, Repr

namespace Target

open Schema (Primitive)

/-- All targets. -/
def all : List Target := [typescript, go, java, python]

/-- The name of a target. -/
def label : Target → String
  | typescript => "typescript"
  | go => "go"
  | java => "java"
  | python => "python"

/-- The target with the given name. -/
def ofLabel? (s : String) : Option Target := all.find? fun t => t.label = s

/-- The default naming rules of a target. -/
def rules : Target → Naming.Rules
  | typescript => TypeScript.rules
  | go => Go.rules
  | java => Java.rules
  | python => Python.rules

/-- The type of any value. -/
def anyType : Target → String
  | typescript => "any"
  | go => "interface\x7b\x7d"
  | java => "Object"
  | python => "Any"

namespace TypeScript

/-- The spelling of a primitive type. -/
def spelling : Primitive → String
  | .boolean => "boolean"
  | .string => "string"
  | .timestamp => "string"
  | _ => "number"

/-- What the spelling of a primitive type loses. -/
def loss : Primitive → Option String
  | .boolean => none
  | .string => none
  | .float64 => none
  | .timestamp => some "RFC 3339 timestamp carried as a string"
  | .float32 => some "TypeScript has no 32-bit float type"
  | _ => some "TypeScript has a single number type; integer width is not enforced"

end TypeScript

namespace Go

/-- The spelling of a primitive type. -/
def spelling : Primitive → String
  | .boolean => "bool"
  | .timestamp => "time.Time"
  | p => p.label

end Go

namespace Java

/-- The spelling of a primitive type.  An unsigned type becomes the next signed type that holds all
its values. -/
def spelling : Primitive → String
  | .boolean => "Boolean"
  | .string => "String"
  | .timestamp => "OffsetDateTime"
  | .float32 => "Float"
  | .float64 => "Double"
  | .int8 => "Byte"
  | .uint8 => "Short"
  | .int16 => "Short"
  | .uint16 => "Integer"
  | .int32 => "Integer"
  | .uint32 => "Long"

end Java

namespace Python

/-- The spelling of a primitive type. -/
def spelling : Primitive → String
  | .boolean => "bool"
  | .string => "str"
  | .timestamp => "datetime"
  | .float32 => "float"
  | .float64 => "float"
  | _ => "int"

/-- What the spelling of a primitive type loses. -/
def loss : Primitive → Option String
  | .float32 => some "Python float is 64-bit"
  | _ => none

end Python

/-- The spelling of a primitive type. -/
def spelling : Target → Primitive → String
  | typescript => TypeScript.spelling
  | go => Go.spelling
  | java => Java.spelling
  | python => Python.spelling

/-- What the spelling of a primitive type loses. -/
def loss : Target → Primitive → Option String
  | typescript => TypeScript.loss
  | python => Python.loss
  | _ => fun _ => none

end Target

/-- A target under a name, with what it supports. -/
structure Backend where
  name : String
  target : Target
  rules : Naming.Rules
  /-- The forms that can be expressed. -/
  forms : List Schema.Form := Schema.Form.all
  /-- The primitive types that can be expressed. -/
  primitives : List Schema.Primitive := Schema.Primitive.all
  /-- A reason for which rendering is refused. -/
  refusal : Option String := none

/-- A target under its own name and default rules. -/
def Target.backend (t : Target) : Backend := { name := t.label, target := t, rules := t.rules }

end Typegen
