import Typegen.Naming.Rules

/-!
# Names in Java

The words that no type or field may be called, and the default naming rules.
-/

namespace Typegen.Target.Java

open Naming (Rules)

/-- The keywords and literals. -/
def keywords : List String :=
  ["abstract", "assert", "boolean", "break", "byte", "case", "catch", "char", "class", "const",
    "continue", "default", "do", "double", "else", "enum", "extends", "final", "finally",
    "float", "for", "goto", "if", "implements", "import", "instanceof", "int", "interface",
    "long", "native", "new", "package", "private", "protected", "public", "return", "short",
    "static", "strictfp", "super", "switch", "synchronized", "this", "throw", "throws",
    "transient", "try", "void", "volatile", "while", "true", "false", "null", "var", "record",
    "yield"]

/-- Class names that a generated type must not shadow. -/
def classNames : List String :=
  ["Object", "String", "Boolean", "Byte", "Short", "Integer", "Long", "Float", "Double", "List",
    "Map", "OffsetDateTime", "Override", "Class", "Enum"]

/-- The default naming rules. -/
def rules : Rules :=
  { ownFieldCase := some .camel, memberCase := .screamingSnake,
    reserved := ⟨keywords ++ classNames, []⟩, ownFieldReserved := some ⟨keywords, []⟩ }

end Typegen.Target.Java
