import Typegen.Failure
import Typegen.Json.Reader
import Typegen.Schema.Node

/-!
# From documents to schemas

`Schema.resolve` checks a JSON document and builds its tree of nodes.  Every schema of the document
is checked on its own by `readHead`, in a fixed order: it is an object, its keywords belong to one
form, its common keywords have the right types, and the keywords of its form do.  Only then its
children are resolved, and a branch of a discriminator is held to the rules for branches after that.
The first fault that this order meets is reported.
-/

namespace Typegen.Schema

/-- Where a schema stands: its place, the definition it is the body of, and whether it is the
document itself. -/
structure Site where
  path : Pointer
  definition : Option String := none
  isRoot : Bool := false

/-- The failure of a schema at a site. -/
def Site.fail {α : Type} (site : Site) (fault : Fault) (form : Option Form := none) :
    Except Failure α :=
  .error (.ofSchema fault
    { path := some site.path.text, definition := site.definition, form := form.map (·.label) })

/-! ## Checks of one schema -/

/-- The forms that some keywords select. -/
def selectedForms (members : List (String × Json)) : List Form :=
  Form.all.filter fun f => f.selectors.any (Json.hasKey members)

/-- The one form that a schema has. -/
def readForm (site : Site) (members : List (String × Json)) : Except Failure Form :=
  match selectedForms members with
  | [] =>
    if Json.hasKey members "additionalProperties" then site.fail .additionalWithoutProperties
    else if Json.hasKey members "mapping" then site.fail .mappingWithoutDiscriminator
    else .ok .empty
  | [f] => .ok f
  | fs => site.fail (.severalForms fs)

/-- The keywords that a schema of a form may have at a site. -/
def allowedKeywords (site : Site) (form : Form) : List String :=
  ["nullable", "metadata"] ++ form.keywords ++ if site.isRoot then ["definitions"] else []

/-- Strings in order. -/
def sortedStrings (xs : List String) : List String := xs.mergeSort (fun a b => decide (a ≤ b))

/-- A schema has no keywords besides those of its form. -/
def checkKeywords (site : Site) (form : Form) (members : List (String × Json)) :
    Except Failure Unit :=
  let allowed := allowedKeywords site form
  match sortedStrings ((Json.keys members).filter fun k => !allowed.contains k) with
  | [] => .ok ()
  | unknown =>
    if unknown.contains "definitions" then site.fail .definitionsBelowRoot
    else site.fail (.unexpectedKeywords unknown) (some form)

/-- A boolean keyword that may be left out. -/
def readFlag (members : List (String × Json)) (key : String) : Option Bool :=
  match Json.get? members key with
  | none => some false
  | some (.bool b) => some b
  | some _ => none

/-- An object keyword that may be left out. -/
def readObject (members : List (String × Json)) (key : String) : Option (List (String × Json)) :=
  match Json.get? members key with
  | none => some []
  | some (.object ms) => some ms
  | some _ => none

/-- What a schema says about itself, its children apart. -/
inductive Head where
  | empty
  | ref (target : String)
  | type (primitive : Primitive)
  | enum (values : List String)
  | elements
  | properties (additional : Bool)
  | values
  | discriminator (tag : String)

/-- The strings of an array that holds nothing else. -/
def stringItems? : List Json → Option (List String)
  | [] => some []
  | .string s :: rest => (stringItems? rest).map (s :: ·)
  | _ :: _ => none

/-- The values of an enumeration. -/
def readEnum (site : Site) (value : Json) : Except Failure Head :=
  match value with
  | .array items =>
    match stringItems? items with
    | none => site.fail .enumNotStrings (some .enum)
    | some [] => site.fail .enumEmpty (some .enum)
    | some vs =>
      match Json.firstRepeat? [] vs with
      | some v => site.fail (.repeatedEnumValue v) (some .enum)
      | none => .ok (.enum vs)
  | _ => site.fail .enumNotStrings (some .enum)

/-- The keywords of the form with properties. -/
def readProperties (site : Site) (members : List (String × Json)) : Except Failure Head :=
  let fail (fault : Fault) : Except Failure Head := site.fail fault (some .properties)
  match readObject members "properties", readObject members "optionalProperties" with
  | none, _ => fail .propertiesNotAnObject
  | some _, none => fail .optionalPropertiesNotAnObject
  | some required, some optional =>
    match (Json.keys required).filter (Json.hasKey optional) with
    | [] =>
      match readFlag members "additionalProperties" with
      | some additional => .ok (.properties additional)
      | none => fail .additionalNotBoolean
    | overlap => fail (.keysInBoth overlap)

/-- The keywords of the form with a discriminator. -/
def readDiscriminator (site : Site) (members : List (String × Json)) : Except Failure Head :=
  let fail (fault : Fault) : Except Failure Head := site.fail fault (some .discriminator)
  match Json.get? members "discriminator" with
  | some (.string tag) =>
    match Json.get? members "mapping" with
    | some (.object []) => fail .mappingEmpty
    | some (.object _) => .ok (.discriminator tag)
    | _ => fail .mappingNotAnObject
  | _ => fail .discriminatorNotAString

/-- The keywords of a form. -/
def readHead (names : List String) (site : Site) (members : List (String × Json)) :
    Form → Except Failure Head
  | .empty => .ok .empty
  | .ref =>
    match Json.get? members "ref" with
    | some (.string t) =>
      if names.contains t then .ok (.ref t) else site.fail (.undefinedRef t) (some .ref)
    | _ => site.fail .refNotAString (some .ref)
  | .type =>
    let value := (Json.get? members "type").getD .null
    match value with
    | .string s =>
      match Primitive.ofLabel? s with
      | some p => .ok (.type p)
      | none => site.fail (.unknownType value) (some .type)
    | _ => site.fail (.unknownType value) (some .type)
  | .enum => readEnum site ((Json.get? members "enum").getD .null)
  | .elements => .ok .elements
  | .properties => readProperties site members
  | .values => .ok .values
  | .discriminator => readDiscriminator site members

/-- The common keywords of a schema. -/
def readInfo (site : Site) (members : List (String × Json)) : Except Failure Info :=
  match readFlag members "nullable", readObject members "metadata" with
  | none, _ => site.fail .nullableNotBoolean
  | some _, none => site.fail .metadataNotAnObject
  | some nullable, some metadata => .ok ⟨site.path, nullable, site.definition, metadata⟩

/-- All that one schema says, its children apart. -/
def readSchema (names : List String) (site : Site) (members : List (String × Json)) :
    Except Failure (Info × Head) := do
  let form ← readForm site members
  checkKeywords site form members
  let info ← readInfo site members
  let head ← readHead names site members form
  return (info, head)

/-! ## Children -/

/-- The members of the object under a key; none when there is no such object. -/
def membersAt (members : List (String × Json)) (key : String) : List (String × Json) :=
  match Json.get? members key with
  | some (.object ms) => ms
  | _ => []

/-- The value under a key; null when there is none. -/
def valueAt (members : List (String × Json)) (key : String) : Json :=
  (Json.get? members key).getD .null

theorem sizeOf_lt_of_get? {members : List (String × Json)} {key : String} {v : Json}
    (h : Json.get? members key = some v) : sizeOf v < sizeOf members := by
  induction members with
  | nil => simp [Json.get?] at h
  | cons m rest ih =>
    obtain ⟨k, w⟩ := m
    simp only [Json.get?, List.lookup_cons] at h ih
    split at h
    · simp only [Option.some.injEq] at h
      subst h
      simp only [List.cons.sizeOf_spec, Prod.mk.sizeOf_spec]
      omega
    · have := ih h
      simp only [List.cons.sizeOf_spec]
      omega

theorem sizeOf_membersAt_le (members : List (String × Json)) (key : String) :
    sizeOf (membersAt members key) ≤ sizeOf members := by
  unfold membersAt
  split
  · next ms h =>
    have := sizeOf_lt_of_get? h
    simp only [Json.object.sizeOf_spec] at this
    omega
  · cases members <;> simp
    omega

theorem sizeOf_valueAt_le (members : List (String × Json)) (key : String) :
    sizeOf (valueAt members key) ≤ sizeOf members := by
  unfold valueAt
  cases h : Json.get? members key with
  | none =>
    cases members <;> simp
    omega
  | some v => simpa using Nat.le_of_lt (sizeOf_lt_of_get? h)

/-- The rules for a branch of a discriminator; they are reported at the branch, for the definition
whose body the discriminator is. -/
def checkBranch (definition : Option String) (tag value : String) (branch : Node) :
    Except Failure Unit :=
  let fail (fault : Fault) : Except Failure Unit :=
    Site.fail ⟨branch.path, definition, false⟩ fault (some branch.form)
  match branch with
  | .properties info required optional _ =>
    if info.nullable then fail (.branchNullable value)
    else if (required ++ optional).any fun e => e.1 == tag then
      fail (.branchRedeclaresTag value tag)
    else .ok ()
  | _ => fail (.branchNotProperties value)

mutual

/-- The node of a schema and of all schemas below it. -/
def resolveNode (names : List String) (site : Site) (raw : Json) : Except Failure Node :=
  match raw with
  | .object members => do
    let (info, head) ← readSchema names site members
    match head with
    | .empty => return .empty info
    | .ref t => return .ref info t
    | .type p => return .type info p
    | .enum vs => return .enum info vs
    | .elements =>
      let item ← resolveNode names ⟨site.path.push ["elements"], none, false⟩
        (valueAt members "elements")
      return .elements info item
    | .properties additional =>
      let required ← resolveEntries names (site.path.push ["properties"])
        (membersAt members "properties")
      let optional ← resolveEntries names (site.path.push ["optionalProperties"])
        (membersAt members "optionalProperties")
      return .properties info required optional additional
    | .values =>
      let item ← resolveNode names ⟨site.path.push ["values"], none, false⟩
        (valueAt members "values")
      return .values info item
    | .discriminator tag =>
      let mapping ← resolveBranches names site.definition tag (site.path.push ["mapping"])
        (membersAt members "mapping")
      return .discriminator info tag mapping
  | _ => site.fail .notAnObject
termination_by sizeOf raw
decreasing_by
  · have := sizeOf_valueAt_le members "elements"
    simp only [Json.object.sizeOf_spec]; omega
  · have := sizeOf_membersAt_le members "properties"
    simp only [Json.object.sizeOf_spec]; omega
  · have := sizeOf_membersAt_le members "optionalProperties"
    simp only [Json.object.sizeOf_spec]; omega
  · have := sizeOf_valueAt_le members "values"
    simp only [Json.object.sizeOf_spec]; omega
  · have := sizeOf_membersAt_le members "mapping"
    simp only [Json.object.sizeOf_spec]; omega

/-- The nodes of the schemas under the keys of an object. -/
def resolveEntries (names : List String) (path : Pointer) (entries : List (String × Json)) :
    Except Failure (List (String × Node)) :=
  match entries with
  | [] => .ok []
  | (key, raw) :: rest => do
    let node ← resolveNode names ⟨path.push [key], none, false⟩ raw
    let nodes ← resolveEntries names path rest
    return (key, node) :: nodes
termination_by sizeOf entries

/-- The nodes of the branches of a discriminator. -/
def resolveBranches (names : List String) (definition : Option String) (tag : String)
    (path : Pointer) (entries : List (String × Json)) : Except Failure (List (String × Node)) :=
  match entries with
  | [] => .ok []
  | (value, raw) :: rest => do
    let node ← resolveNode names ⟨path.push [value], none, false⟩ raw
    checkBranch definition tag value node
    let nodes ← resolveBranches names definition tag path rest
    return (value, node) :: nodes
termination_by sizeOf entries

end

/-- The nodes of the definitions. -/
def resolveDefinitions (names : List String) :
    List (String × Json) → Except Failure (List (String × Node))
  | [] => .ok []
  | (name, raw) :: rest => do
    let node ← resolveNode names ⟨Pointer.root.push ["definitions", name], some name, false⟩ raw
    let nodes ← resolveDefinitions names rest
    return (name, node) :: nodes

/-- The schema of a document. -/
def resolve (document : Json) : Except Failure Schema :=
  match document with
  | .object members =>
    match readObject members "definitions" with
    | none => .error (.ofSchema .definitionsNotAnObject
        { path := some (Pointer.root.push ["definitions"]).text })
    | some raw => do
      let names := Json.keys raw
      let definitions ← resolveDefinitions names raw
      let root ← resolveNode names ⟨.root, none, true⟩ document
      return ⟨definitions, root⟩
  | _ => .error (.ofSchema .notAnObject { path := some Pointer.root.text })

end Typegen.Schema
