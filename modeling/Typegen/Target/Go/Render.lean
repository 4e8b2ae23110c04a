import Typegen.Declaration.Spelling
import Typegen.Files.Path
import Typegen.Target.Layout
import Typegen.Text.Case
import Typegen.Text.Lowercase

/-!
# Declarations in Go

An enumeration is a named string type with a constant for each value.  A tagged union is a struct
that holds the tag and a value of an interface which the branches implement, with functions that read
and write it.  What is optional is a pointer, unless it can be nil already.
-/

namespace Typegen.Target.Go

/-- Whether the type of an expression of this kind can be nil already. -/
def isNilable : TypeKind → Bool
  | .any => true
  | .array => true
  | .map => true
  | _ => false

/-- How type expressions are written. -/
def style : TypeStyle where
  literal _ := "string"
  array item := "[]" ++ item
  map item := "map[string]" ++ item
  optional _ kind item := if isNilable kind then item else "*" ++ item

/-- The type of an expression. -/
def renderType (t : TypeExpr) : Except Failure String := t.spell style

/-- The type of a field.  A field that has to be stored behind a reference is a pointer. -/
def fieldType (f : Field) : Except Failure String :=
  if f.type.kind = .named && f.type.byReference then .ok ("*" ++ f.type.name)
  else renderType f.type

/-- The lines of a field of a struct. -/
def fieldLines (f : Field) : Except Failure (List String) := do
  let type ← fieldType f
  let tag := f.wire ++ if f.mayBeAbsent then ",omitempty" else ""
  return (lineComments "//" f.description).map ("\t" ++ ·) ++
    ["\t" ++ f.name ++ " " ++ type ++ " `json:\"" ++ tag ++ "\"`"]

/-- The lines of a struct. -/
def structLines (name : String) (fields : List Field) : Except Failure (List String) := do
  let fields ← fields.mapM fieldLines
  return ["type " ++ name ++ " struct \x7b"] ++ fields.flatten ++ ["\x7d"]

/-- The lines of an enumeration. -/
def enumLines (name : String) (members : List (String × String)) : List String :=
  ["type " ++ name ++ " string", "", "const ("] ++
    members.map (fun m => "\t" ++ m.1 ++ " " ++ name ++ " = " ++ Text.quote m.2) ++ [")"]

/-- The lines of a union: the struct, the interface of its branches, and the functions that write and
read it. -/
def unionLines (name tagName tagWire : String) (variants : List (String × String)) :
    List String :=
  let interface := "is" ++ name
  let value := if tagName = "Value" then "Variant" else "Value"
  let types := variants.map Prod.snd
  ["type " ++ name ++ " struct \x7b",
    "\t" ++ tagName ++ " string",
    "",
    "\t// One of:" ++ String.join ((separated "," types).map (" " ++ ·)),
    "\t" ++ value ++ " " ++ interface,
    "\x7d",
    "",
    "type " ++ interface ++ " interface \x7b",
    "\t" ++ interface ++ "()",
    "\x7d"] ++
  types.flatMap (fun t => ["", "func (" ++ t ++ ") " ++ interface ++ "() \x7b\x7d"]) ++
  ["",
    "func (v " ++ name ++ ") MarshalJSON() ([]byte, error) \x7b",
    "\tswitch value := v." ++ value ++ ".(type) \x7b"] ++
  variants.flatMap (fun v =>
    ["\tcase " ++ v.2 ++ ":",
      "\t\treturn json.Marshal(struct \x7b",
      "\t\t\tTag string `json:\"" ++ tagWire ++ "\"`",
      "\t\t\t" ++ v.2,
      "\t\t\x7d\x7b" ++ Text.quote v.1 ++ ", value\x7d)"]) ++
  ["\t\x7d",
    "\treturn nil, fmt.Errorf(\"" ++ name ++ ": unknown variant %T\", v." ++ value ++ ")",
    "\x7d",
    "",
    "func (v *" ++ name ++ ") UnmarshalJSON(b []byte) error \x7b",
    "\tvar t struct \x7b",
    "\t\tTag string `json:\"" ++ tagWire ++ "\"`",
    "\t\x7d",
    "\tif err := json.Unmarshal(b, &t); err != nil \x7b",
    "\t\treturn err",
    "\t\x7d",
    "",
    "\tswitch t.Tag \x7b"] ++
  variants.flatMap (fun v =>
    ["\tcase " ++ Text.quote v.1 ++ ":",
      "\t\tvar value " ++ v.2,
      "\t\tif err := json.Unmarshal(b, &value); err != nil \x7b",
      "\t\t\treturn err",
      "\t\t\x7d",
      "\t\tv." ++ value ++ " = value"]) ++
  ["\tdefault:",
    "\t\treturn fmt.Errorf(\"" ++ name ++ ": bad " ++ tagWire ++ " value: %q\", t.Tag)",
    "\t\x7d",
    "",
    "\tv." ++ tagName ++ " = t.Tag",
    "\treturn nil",
    "\x7d"]

/-- The lines of a declaration.  The struct of a union carries the tag, so branches leave it out; a
name for a declared type keeps its functions, and any other name is a type of its own. -/
def declarationLines (d : Declaration) : Except Failure (List String) :=
  let doc := lineComments "//" d.description
  match d with
  | .struct h fields base _ => do
    let own := if (nonEmpty base).isSome then dataFields fields else fields
    return doc ++ (← structLines h.name own)
  | .enum h members => .ok (doc ++ enumLines h.name members)
  | .union h tagName tagWire variants => .ok (doc ++ unionLines h.name tagName tagWire variants)
  | .synonym h target => do
    let sign := if target.kind = .named then "= " else ""
    return doc ++ ["type " ++ h.name ++ " " ++ sign ++ (← renderType target)]

/-- The packages that some declarations need. -/
def imports (ds : List Declaration) : List String :=
  (if ds.any (·.isUnion) then ["encoding/json", "fmt"] else []) ++
    if (Declaration.walkTypes ds).any fun t => t.kind = .primitive && t.name = "time.Time" then
      ["time"]
    else []

/-- The name that the package is derived from: the configured package, else the last part of the
output directory, else the root type. -/
def packageSource (s : Setting) : Except Failure String :=
  if s.package.isTruthy then
    match s.package with
    | .string p => .ok p
    | v => .error (.noSuchMember v "lower")
  else
    match s.outDir with
    | .string dir =>
      let last := (Files.Path.ofText dir).name
      if last = "" then s.snakeName else .ok last
    | v =>
      .error (.wrongType (.unusable
        ("expected str, bytes or os.PathLike object, not " ++ v.typeName)))

/-- A character of a package name. -/
def isPackageChar (c : Char) : Bool := Text.isSmall c || Text.isDigit c || c = '_'

/-- A package name made of small letters, digits and underscores that begins with no digit. -/
def packageName (s : Setting) : Except Failure String := do
  let cs := (Text.lowercase (← packageSource s)).toList.filter isPackageChar
  let front := match cs with
    | [] => "schema"
    | c :: _ => if Text.isDigit c then "schema" else ""
  return front ++ String.ofList cs

/-- The lines at the top of the file. -/
def heading (s : Setting) (ds : List Declaration) (notes : List String) :
    Except Failure (List String) := do
  let package ← packageName s
  let paths := imports ds
  return headingLines "//" s.comment notes ++ ["", "package " ++ package] ++
    if paths.isEmpty then []
    else ["", "import ("] ++ paths.map (fun p => "\t\"" ++ p ++ "\"") ++ [")"]

/-- The path of the file. -/
def outputPath (s : Setting) : Except Failure String := do return (← packageName s) ++ ".go"

end Typegen.Target.Go
