import Typegen.Declaration.Spelling
import Typegen.Target.Layout

/-!
# Declarations in Java

Annotated classes, one file each.  A tagged union is an abstract class with a subclass for each
branch, and a name for a type is a class around one value.
-/

namespace Typegen.Target.Java

/-- How type expressions are written.  Every type can be null already. -/
def style : TypeStyle where
  literal _ := "String"
  array item := "List<" ++ item ++ ">"
  map item := "Map<String, " ++ item ++ ">"
  optional _ _ item := item

/-- The type of an expression. -/
def renderType (t : TypeExpr) : Except Failure String := t.spell style

/-- The type without a box, for a value that is always there. -/
def unboxed : String → String
  | "Boolean" => "boolean"
  | "Byte" => "byte"
  | "Short" => "short"
  | "Integer" => "int"
  | "Long" => "long"
  | "Float" => "float"
  | "Double" => "double"
  | other => other

/-- The type of a field. -/
def fieldType (f : Field) : Except Failure String :=
  if f.type.kind = .primitive then .ok (unboxed f.type.name) else renderType f.type

/-- The lines of a field of a class. -/
def fieldLines (f : Field) : Except Failure (List String) := do
  let type ← fieldType f
  return shortBlockComment "    " f.description ++
    (if f.mayBeAbsent then ["    @JsonInclude(JsonInclude.Include.NON_NULL)"] else []) ++
    ["    @JsonProperty(" ++ Text.quote f.wire ++ ")",
      "    public " ++ type ++ " " ++ f.name ++ ";"]

/-- The annotation with the tag value of a branch.  A branch without a tag field has none. -/
def typeNameLines (fields : List Field) (base : Option String) : Except Failure (List String) :=
  match nonEmpty base with
  | none => .ok []
  | some _ =>
    match fields.find? (·.isTag) with
    | some tag => .ok ["@JsonTypeName(" ++ quoteOrNull tag.tagValue ++ ")"]
    | none =>
      .error (.wrongType (.unusable "Object of type Undefined is not JSON serializable"))

/-- The lines of a class with fields.  The class of a union reads and writes the tag. -/
def classLines (name : String) (fields : List Field) (base : Option String) (additional : Bool) :
    Except Failure (List String) := do
  let members ← (dataFields fields).mapM fieldLines
  let typeName ← typeNameLines fields base
  let superclass := match nonEmpty base with
    | some b => " extends " ++ b
    | none => ""
  return (if additional then ["@JsonIgnoreProperties(ignoreUnknown = true)"] else []) ++
    typeName ++ ["public class " ++ name ++ superclass ++ " \x7b"] ++
    (members.intersperse [""]).flatten ++ ["\x7d"]

/-- The lines of the members of an enumeration. -/
def memberLines : List (String × String) → List String
  | [] => []
  | [(name, value)] => ["    @JsonProperty(" ++ Text.quote value ++ ")", "    " ++ name]
  | (name, value) :: rest =>
    ["    @JsonProperty(" ++ Text.quote value ++ ")", "    " ++ name ++ ",", ""] ++
      memberLines rest

/-- The lines of the class of a union. -/
def unionLines (name tagWire : String) (variants : List (String × String)) : List String :=
  ["@JsonTypeInfo(use = JsonTypeInfo.Id.NAME, include = JsonTypeInfo.As.PROPERTY, property = " ++
      Text.quote tagWire ++ ")",
    "@JsonSubTypes(\x7b"] ++
  separated "," (variants.map fun v =>
    "    @JsonSubTypes.Type(name = " ++ Text.quote v.1 ++ ", value = " ++ v.2 ++ ".class)") ++
  ["\x7d)", "public abstract class " ++ name ++ " \x7b", "\x7d"]

/-- The lines of a class around one value. -/
def aliasLines (name type : String) : List String :=
  ["public class " ++ name ++ " \x7b",
    "    @JsonValue",
    "    public " ++ type ++ " value;",
    "",
    "    public " ++ name ++ "() \x7b",
    "    \x7d",
    "",
    "    @JsonCreator",
    "    public " ++ name ++ "(" ++ type ++ " value) \x7b",
    "        this.value = value;",
    "    \x7d",
    "\x7d"]

/-- The lines of a declaration. -/
def declarationLines (d : Declaration) : Except Failure (List String) :=
  let doc := blockComment d.description
  match d with
  | .struct h fields base additional => do
    return doc ++ (← classLines h.name fields base additional)
  | .enum h members =>
    .ok (doc ++ ["public enum " ++ h.name ++ " \x7b"] ++ memberLines members ++ ["\x7d"])
  | .union h _ tagWire variants => .ok (doc ++ unionLines h.name tagWire variants)
  | .synonym h target => do return doc ++ aliasLines h.name (← renderType target)

/-- An annotation class. -/
def annotationClass (name : String) : String := "com.fasterxml.jackson.annotation." ++ name

/-- The annotation classes that a declaration needs. -/
def annotations : Declaration → List String
  | .struct _ fields base additional =>
    (if (dataFields fields).isEmpty then [] else ["JsonProperty"]) ++
      (if fields.any (·.mayBeAbsent) then ["JsonInclude"] else []) ++
      (if additional then ["JsonIgnoreProperties"] else []) ++
      if (nonEmpty base).isSome then ["JsonTypeName"] else []
  | .enum _ _ => ["JsonProperty"]
  | .union _ _ _ _ => ["JsonSubTypes", "JsonTypeInfo"]
  | .synonym _ _ => ["JsonCreator", "JsonValue"]

/-- The library class that a type expression needs. -/
def libraryClass? (t : TypeExpr) : Option String :=
  match t.kind with
  | .array => some "java.util.List"
  | .map => some "java.util.Map"
  | .primitive => if t.name = "OffsetDateTime" then some "java.time.OffsetDateTime" else none
  | _ => none

/-- The classes that some declarations need, in order. -/
def imports (ds : List Declaration) : List String :=
  let needed := (ds.flatMap annotations).map annotationClass ++
    (Declaration.walkTypes ds).filterMap libraryClass?
  needed.eraseDups.mergeSort fun a b => decide (a ≤ b)

/-- The lines at the top of a file. -/
def heading (s : Setting) (ds : List Declaration) (notes : List String) : List String :=
  let classes := imports ds
  headingLines "//" s.comment notes ++
    (if s.package.isTruthy then ["", "package " ++ s.package.plain ++ ";"] else []) ++
    if classes.isEmpty then [] else "" :: classes.map fun c => "import " ++ c ++ ";"

/-- The path of a file. -/
def outputPath (name : String) : String := name ++ ".java"

end Typegen.Target.Java
