import Typegen.Naming.Rules

/-!
# Names in TypeScript

The words that no type may be called, and the default naming rules.  The members of an interface are
the keys of the data themselves, so fields are neither converted nor escaped.
-/

namespace Typegen.Target.TypeScript

open Naming (Rules)

/-- Reserved words and the names of built-in types. -/
def reservedWords : List String :=
  ["break", "case", "catch", "class", "const", "continue", "debugger", "default", "delete", "do",
    "else", "enum", "export", "extends", "false", "finally", "for", "function", "if", "import",
    "in", "instanceof", "new", "null", "return", "super", "switch", "this", "throw", "true",
    "try", "typeof", "var", "void", "while", "with", "as", "implements", "interface", "let",
    "package", "private", "protected", "public", "static", "yield", "any", "boolean", "number",
    "string", "symbol", "object", "unknown", "never", "undefined", "bigint", "type", "Array",
    "Date", "Error", "Function", "Map", "Object", "Promise", "Record", "Set"]

/-- The default naming rules. -/
def rules : Rules :=
  { ownFieldCase := some .preserve, reserved := ⟨reservedWords, []⟩,
    ownFieldReserved := some .empty }

end Typegen.Target.TypeScript
