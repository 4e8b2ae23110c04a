import Typegen.Naming.Rules

/-!
# Names in Go

The words that no type may be called, and the default naming rules.  Only exported identifiers are
used, and the constants of an enumeration share the scope of the types.
-/

namespace Typegen.Target.Go

open Naming (Rules)

/-- The keywords. -/
def keywords : List String :=
  ["break", "case", "chan", "const", "continue", "default", "defer", "else", "fallthrough",
    "for", "func", "go", "goto", "if", "import", "interface", "map", "package", "range",
    "return", "select", "struct", "switch", "type", "var"]

/-- Predeclared identifiers that a generated type would shadow. -/
def predeclared : List String :=
  ["any", "bool", "byte", "comparable", "error", "float32", "float64", "int", "int8", "int16",
    "int32", "int64", "rune", "string", "uint", "uint8", "uint16", "uint32", "uint64", "uintptr",
    "nil", "true", "false", "iota"]

/-- The default naming rules. -/
def rules : Rules :=
  { reserved := ⟨keywords ++ predeclared, []⟩, digitPrefix := .string "N",
    qualifyMembers := .bool true }

end Typegen.Target.Go
