import Typegen.Declaration.TypeExpr

/-!
# Declarations

What a generated file declares: types with fields, enumerations, tagged unions and names for type
expressions.
-/

namespace Typegen

/-- A field of a declared type. -/
structure Field where
  /-- The identifier. -/
  name : String
  /-- The key in the data. -/
  wire : String
  type : TypeExpr
  /-- Whether the key has to be present. -/
  required : Bool := true
  description : Option String := none
  /-- Whether the field is the tag of a union's branch. -/
  isTag : Bool := false
  /-- The value of the tag. -/
  tagValue : Option String := none

namespace Field

/-- Whether the key may be missing. -/
def mayBeAbsent (f : Field) : Bool := f.type.kind = .optional && f.type.mayBeAbsent

/-- Whether the value may be null. -/
def mayBeNull (f : Field) : Bool := f.type.kind = .optional && f.type.mayBeNull

/-- Whether the identifier is not the key. -/
def isRenamed (f : Field) : Bool := f.name ≠ f.wire

end Field

/-- What all declarations have. -/
structure Header where
  /-- The identifier of the declared type. -/
  name : String
  /-- The place of the schema that the declaration comes from. -/
  path : String := ""
  description : Option String := none

/-- A declaration. -/
inductive Declaration where
  /-- A type with fields.  A branch of a union has that union as its base. -/
  | struct (header : Header) (fields : List Field) (base : Option String) (additional : Bool)
  /-- A closed set of strings, each with an identifier. -/
  | enum (header : Header) (members : List (String × String))
  /-- A union: the tag's identifier and key, and for each tag value the type of its branch. -/
  | union (header : Header) (tagName tagWire : String) (variants : List (String × String))
  /-- A name for a type expression. -/
  | synonym (header : Header) (target : TypeExpr)

namespace Declaration

/-- What the declaration has in common with all others. -/
def header : Declaration → Header
  | struct h _ _ _ => h
  | enum h _ => h
  | union h _ _ _ => h
  | synonym h _ => h

/-- The identifier of the declared type. -/
def name (d : Declaration) : String := d.header.name

/-- The description of a declaration. -/
def description (d : Declaration) : Option String := d.header.description

/-- The type expressions that a declaration uses. -/
def types : Declaration → List TypeExpr
  | struct _ fields _ _ => fields.map (·.type)
  | synonym _ target => [target]
  | _ => []

/-- The type expressions that some declarations use, with those inside them. -/
def walkTypes (ds : List Declaration) : List TypeExpr :=
  ds.flatMap fun d => d.types.flatMap (·.walk)

/-- The remarks on some declarations and further expressions, without repetitions. -/
def collectNotes (ds : List Declaration) (more : List TypeExpr := []) : List String :=
  ((walkTypes ds ++ more.flatMap (·.walk)).flatMap (·.notes)).eraseDups

/-- The declarations by name; of several with one name the last counts. -/
def byName (ds : List Declaration) : List (String × Declaration) :=
  ds.foldl (fun table d => Json.setMember d.name d table) []

/-- Whether a declaration is a type with fields. -/
def isStruct : Declaration → Bool
  | struct _ _ _ _ => true
  | _ => false

/-- Whether a declaration is an enumeration. -/
def isEnum : Declaration → Bool
  | enum _ _ => true
  | _ => false

/-- Whether a declaration is a union. -/
def isUnion : Declaration → Bool
  | union _ _ _ _ => true
  | _ => false

/-- Whether a declaration is a name for a type expression. -/
def isAlias : Declaration → Bool
  | synonym _ _ => true
  | _ => false

/-- The fields of a declaration. -/
def fields : Declaration → List Field
  | struct _ fs _ _ => fs
  | _ => []

end Declaration

/-- The fields other than tags. -/
def dataFields (fields : List Field) : List Field := fields.filter fun f => !f.isTag

end Typegen
