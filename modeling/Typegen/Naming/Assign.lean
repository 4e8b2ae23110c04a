import Typegen.Naming.Namespace
import Typegen.Naming.Rules
import Typegen.Naming.Table
import Typegen.Schema.Walk

/-!
# Assigning names

Every definition, every nested enumeration, struct and union, every field and every member of an
enumeration gets an identifier.  Definitions are named in order and the root last, each followed by
the nodes below it as they are visited.  A nested type is named after the keys that lead to it.
-/

namespace Typegen.Naming

open Schema (Node)

/-! ## Raw identifiers -/

namespace Rules

/-- An identifier as the target needs it: not empty, and with no digit in front.  Where spelling is
preserved nothing is changed. -/
def finish (r : Rules) (convention : Text.Case) (fallback text : String) : Except Failure String :=
  if convention = .preserve then .ok text
  else
    let id := if text = "" then convention.convert fallback else text
    match id.toList with
    | c :: _ =>
      if Text.isDigit c then
        match r.digitPrefix with
        | .string p => .ok (p ++ id)
        | v => .error (.wrongType (.prepended v))
      else .ok id
    | [] => .ok id

/-- The words of a type's name in the case of types. -/
def typeText (r : Rules) (segments : List String) : String :=
  match r.separator with
  | .underscore =>
    "_".intercalate ((segments.map r.typeCase.convert).filter fun s => s ≠ "")
  | .concatenate => r.typeCase.convert (" ".intercalate segments)

/-- The identifier of a type, before it is claimed. -/
def typeIdentifier (r : Rules) (segments : List String) (fallback : String := "Type") :
    Except Failure String :=
  r.finish r.typeCase fallback (r.typeText segments)

/-- The identifier of a field, before it is claimed. -/
def fieldIdentifier (r : Rules) (key : String) : Except Failure String :=
  r.finish r.fieldCase "field" (r.fieldCase.convert key)

/-- The identifier of a member, before it is claimed. -/
def memberIdentifier (r : Rules) (value : String) : Except Failure String :=
  r.finish r.memberCase "Empty" (r.memberCase.convert value)

/-- The name of the root as a text.  Where parts are joined as they are, one that counts as nothing
is left out like an empty one. -/
def rootText (r : Rules) : Json → Except Failure String
  | .string s => .ok s
  | v =>
    match r.separator, r.typeCase with
    | .concatenate, _ => .error (.wrongType (.notAText 0 v))
    | .underscore, .preserve =>
      if v.isFalsy then .ok "" else .error (.wrongType (.notAText 0 v))
    | .underscore, _ => .error (.noSuchMember v "replace")

/-- A namespace with the given reserved words, from which nothing is taken. -/
def freshNames (r : Rules) (reserved : WordSet) : Namespace :=
  { reserved := reserved.words, escapeSuffix := r.escapeSuffix, maxLength := r.maxLength }

end Rules

/-! ## Places to name -/

/-- A node with what its name depends on. -/
structure Site where
  node : Node
  /-- The name of the definition or the root, and the keys that lead to the node. -/
  segments : List String
  /-- The tag of the union that the node is a branch of. -/
  tag : Option String := none
  /-- The identifier of the node's type, when it has been claimed already. -/
  given : Option String := none

/-- The sites directly below a site. -/
def Site.children (s : Site) : List Site :=
  match s.node with
  | .elements _ item => [{ node := item, segments := s.segments }]
  | .values _ item => [{ node := item, segments := s.segments }]
  | .properties _ required optional _ =>
    (required ++ optional).map fun (key, n) => { node := n, segments := s.segments ++ [key] }
  | .discriminator _ tag mapping =>
    mapping.map fun (value, n) => { node := n, segments := s.segments ++ [value], tag := some tag }
  | _ => []

theorem Site.map_node_children (s : Site) : s.children.map Site.node = s.node.children := by
  unfold Site.children
  split <;> simp_all [Node.children, List.map_map, Function.comp_def]

/-- The pending sites and all sites below them, in the order in which nodes are visited. -/
def sites (pending : List Site) : List Site :=
  match pending with
  | [] => []
  | s :: rest => s :: sites (s.children ++ rest)
termination_by ((pending.map Site.node).flatMap Node.preorder).length
decreasing_by
  simp only [List.map_append, List.flatMap_append, List.map_cons, List.flatMap_cons,
    List.length_append, Site.map_node_children]
  rw [Node.preorder_eq s.node]
  simp only [List.length_cons]
  omega

/-! ## Naming a site -/

/-- The names of fields, claimed in order. -/
def nameFields (r : Rules) (own : Namespace) (path : Option String) :
    List String → Except Failure (List FieldName)
  | [] => .ok []
  | key :: rest => do
    let (id, own) ← own.claim (← r.fieldIdentifier key) path
    return ⟨id, key⟩ :: (← nameFields r own path rest)

/-- The members of an enumeration, named among the types. -/
def nameQualified (r : Rules) (types : Namespace) (path : Option String) (segments : List String) :
    List String → Except Failure (List (String × String) × Namespace)
  | [] => .ok ([], types)
  | value :: rest => do
    let (id, types) ← types.claim (← r.typeIdentifier (segments ++ [value]) "Empty") path
    let (members, types) ← nameQualified r types path segments rest
    return ((value, id) :: members, types)

/-- The members of an enumeration, named in a namespace of their own. -/
def nameMembers (r : Rules) (own : Namespace) (path : Option String) :
    List String → Except Failure (List (String × String))
  | [] => .ok []
  | value :: rest => do
    let (id, own) ← own.claim (← r.memberIdentifier value) path
    return (value, id) :: (← nameMembers r own path rest)

/-- The type of a site: the one it has been given, or a new one. -/
def nameType (r : Rules) (types : Namespace) (s : Site) : Except Failure (String × Namespace) :=
  match s.given with
  | some id => .ok (id, types)
  | none => do types.claim (← r.typeIdentifier s.segments) (some s.node.path.text)

/-- What is named at a site, if anything.  Fields are named in a namespace of their own, in which the
tag of a branch comes first. -/
def nameSite (r : Rules) (types : Namespace) (s : Site) :
    Except Failure (Option Names × Namespace) :=
  let path := some s.node.path.text
  match s.node with
  | .enum _ values => do
    let (type, types) ← nameType r types s
    if r.qualifyMembers.isTruthy then
      let (members, types) ← nameQualified r types path s.segments values
      return (some (.enum type members), types)
    else
      let members ← nameMembers r (r.freshNames r.reserved) path values
      return (some (.enum type members), types)
  | .properties _ required optional _ => do
    let (type, types) ← nameType r types s
    let fields ← nameFields r (r.freshNames r.fieldReserved) path
      (s.tag.toList ++ (required ++ optional).map Prod.fst)
    return (some (.struct type fields), types)
  | .discriminator _ tag _ => do
    let (type, types) ← nameType r types s
    let (id, _) ← (r.freshNames r.fieldReserved).claim (← r.fieldIdentifier tag) path
    return (some (.union type ⟨id, tag⟩), types)
  | _ => .ok (none, types)

/-- What is named at several sites. -/
def nameSites (r : Rules) (types : Namespace) :
    List Site → Except Failure (List (Pointer × Names) × Namespace)
  | [] => .ok ([], types)
  | s :: rest => do
    let (names, types) ← nameSite r types s
    let (others, types) ← nameSites r types rest
    return ((names.map (s.node.path, ·)).toList ++ others, types)

/-- The identifier of a definition or the root, and what is named at the nodes of its body. -/
def nameBody (r : Rules) (types : Namespace) (name : String) (body : Node) :
    Except Failure (String × List (Pointer × Names) × Namespace) := do
  let (id, types) ← types.claim (← r.typeIdentifier [name]) (some body.path.text)
  let (nodes, types) ← nameSites r types (sites [{ node := body, segments := [name], given := id }])
  return (id, nodes, types)

/-- The identifiers of the definitions and what is named at their nodes. -/
def nameDefinitions (r : Rules) (types : Namespace) : List (String × Node) →
    Except Failure (List (String × String) × List (Pointer × Names) × Namespace)
  | [] => .ok ([], [], types)
  | (name, body) :: rest => do
    let (id, nodes, types) ← nameBody r types name body
    let (ids, others, types) ← nameDefinitions r types rest
    return ((name, id) :: ids, nodes ++ others, types)

/-- The name table of a schema. -/
def assign (r : Rules) (schema : Schema) (rootName : Json) : Except Failure Table := do
  let (definitions, nodes, types) ←
    nameDefinitions r (r.freshNames r.reserved) schema.definitions
  let (root, others, _) ← nameBody r types (← r.rootText rootName) schema.root
  return ⟨root, definitions, nodes ++ others⟩

end Typegen.Naming
