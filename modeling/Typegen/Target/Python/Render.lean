import Typegen.Declaration.Spelling
import Typegen.Target.Layout
import Typegen.Target.Python.Decoder
import Typegen.Text.Case

/-!
# Declarations in Python

Data classes.  A renamed field keeps its key in its metadata.  A tagged union is a base class with a
subclass for each branch, whose tag is a field with a literal type; the base class decodes by the tag.
-/

namespace Typegen.Target.Python

/-- How type expressions are written. -/
def style : TypeStyle where
  literal s := "Literal[" ++ Text.quote s ++ "]"
  array item := "list[" ++ item ++ "]"
  map item := "dict[str, " ++ item ++ "]"
  optional _ _ item := item ++ " | None"

/-- The annotation of an expression. -/
def renderType (t : TypeExpr) : Except Failure String := t.spell style

/-! ## Fields -/

/-- The value that a field has when it is not given. -/
def plainDefault (f : Field) : Option String :=
  if f.isTag then some (quoteOrNull f.tagValue)
  else if f.mayBeAbsent then some "None"
  else none

/-- The right-hand side of a field; none for a plain field that has to be given. -/
def fieldDefault (f : Field) (decoder : Option String) : Option String :=
  let options :=
    (if f.isRenamed then ["field_name=" ++ Text.quote f.wire] else []) ++
      decoder.toList.map ("decoder=" ++ ·)
  if options.isEmpty then plainDefault f
  else
    let metadata := "metadata=config(" ++ ", ".intercalate options ++ ")"
    match plainDefault f with
    | none => some ("field(" ++ metadata ++ ")")
    | some d => some ("field(default=" ++ d ++ ", " ++ metadata ++ ")")

/-- The line of a field. -/
def fieldLine (declared : Declared) (f : Field) : Except Failure String := do
  let type ← renderType f.type
  let default := match fieldDefault f (← fieldDecoder declared f) with
    | some d => " = " ++ d
    | none => ""
  return "    " ++ f.name ++ ": " ++ type ++ default

/-- The fields in an order in which those without a default come first. -/
def orderedFields (fields : List Field) : List Field :=
  let hasDefault (f : Field) : Bool := f.isTag || f.mayBeAbsent
  fields.filter (fun f => !hasDefault f) ++ fields.filter hasDefault

/-! ## Declarations -/

/-- The documentation string of a class. -/
def docLines (description : Option String) : List String :=
  match nonEmpty description with
  | none => []
  | some s => ["    \"\"\"" ++ Text.escapeTripleQuotes s ++ "\"\"\"", ""]

/-- The lines of a class with fields. -/
def classLines (declared : Declared) (h : Header) (fields : List Field) (base : Option String) :
    Except Failure (List String) := do
  let members ← (orderedFields fields).mapM (fieldLine declared)
  let bases := match nonEmpty base with
    | some b => "(" ++ b ++ ")"
    | none => ""
  let filler :=
    if members.isEmpty && (nonEmpty h.description).isNone then ["    pass"] else []
  return ["@dataclass_json", "@dataclass", "class " ++ h.name ++ bases ++ ":"] ++
    docLines h.description ++ members ++ filler

/-- The lines of an enumeration. -/
def enumLines (h : Header) (members : List (String × String)) : List String :=
  ["class " ++ h.name ++ "(str, Enum):"] ++ docLines h.description ++
    members.map fun m => "    " ++ m.1 ++ " = " ++ Text.quote m.2

/-- The types of the branches by tag value; of several with one value the last counts. -/
def dispatch (variants : List (String × String)) : List (String × String) :=
  variants.foldl (fun table v => Json.setMember v.1 v.2 table) []

/-- The lines of the base class of a union. -/
def unionLines (h : Header) (tagWire : String) (variants : List (String × String)) :
    List String :=
  ["@dataclass", "class " ++ h.name ++ ":"] ++ docLines h.description ++
  ["    @staticmethod",
    "    def from_dict(data: dict, *, infer_missing: bool = False) -> " ++ h.name ++ ":",
    "        \"\"\"Decode the variant selected by the " ++ Text.quote tagWire ++ " key.\"\"\"",
    "        variants = \x7b"] ++
  (dispatch variants).map (fun v => "            " ++ Text.quote v.1 ++ ": " ++ v.2 ++ ",") ++
  ["        \x7d",
    "        tag = data[" ++ Text.quote tagWire ++ "]",
    "        if tag not in variants:",
    "            raise ValueError(f\"Unknown tag for " ++ h.name ++ ": \x7btag!r\x7d\")",
    "        return variants[tag].from_dict(data, infer_missing=infer_missing)"]

/-- The lines of a declaration. -/
def declarationLines (s : Setting) (d : Declaration) : Except Failure (List String) :=
  match d with
  | .struct h fields base _ => classLines s.declared h fields base
  | .enum h members => .ok (enumLines h members)
  | .union h _ tagWire variants => .ok (unionLines h tagWire variants)
  | .synonym h target => do
    return lineComments "#" h.description ++ ["type " ++ h.name ++ " = " ++ (← renderType target)]

/-! ## Imports -/

/-- Whether some item satisfies a check that may fail; items after the first hit are not checked. -/
def anyM {α : Type} (check : α → Except Failure Bool) : List α → Except Failure Bool
  | [] => .ok false
  | a :: rest => do if ← check a then return true else anyM check rest

/-- Whether a field carries metadata. -/
def hasMetadata (declared : Declared) (f : Field) : Except Failure Bool :=
  if f.isRenamed then .ok true else do return (← fieldDecoder declared f).isSome

/-- The import lines of names from the standard library. -/
def standardImports (ds : List Declaration) (needsConfig : Bool) : List String :=
  let types := Declaration.walkTypes ds
  let typingNames :=
    (if types.any fun t => t.kind = .any then ["Any"] else []) ++
      if types.any fun t => t.kind = .literal then ["Literal"] else []
  (if ds.any fun d => d.isStruct || d.isUnion then
    ["from dataclasses import dataclass" ++ if needsConfig then ", field" else ""] else []) ++
  (if types.any fun t => t.kind = .primitive && t.name = "datetime" then
    ["from datetime import datetime"] else []) ++
  (if ds.any (·.isEnum) then ["from enum import Enum"] else []) ++
  if typingNames.isEmpty then [] else ["from typing import " ++ ", ".intercalate typingNames]

/-- The import lines of some declarations, in groups divided by an empty line. -/
def imports (ds : List Declaration) : Except Failure (List String) := do
  let declared := Declaration.byName ds
  let needsConfig ← anyM (hasMetadata declared) (ds.flatMap (·.fields))
  let library :=
    if ds.any fun d => d.isStruct || d.isUnion then
      ["from dataclasses_json import " ++ (if needsConfig then "config, " else "") ++
        "dataclass_json"]
    else []
  let groups := [["from __future__ import annotations"], standardImports ds needsConfig, library]
  return ((groups.filter fun g => !g.isEmpty).intersperse [""]).flatten

/-- The lines at the top of the file. -/
def heading (s : Setting) (ds : List Declaration) (notes : List String) :
    Except Failure (List String) := do
  let remarks := headingLines "#" s.comment notes
  return remarks ++ (if remarks.isEmpty then [] else [""]) ++ (← imports ds)

/-- The path of the file. -/
def outputPath (s : Setting) : Except Failure String := do
  let name ← s.snakeName
  return (if name = "" then "schema" else name) ++ ".py"

end Typegen.Target.Python
