import Typegen.Target.Render
import Typegen.Text.Lowercase

/-!
# Registry of targets

Targets are asked for by name or by alias, in any letter case.  Registering is refused when a name is
taken, unless the registration is to replace what is there.  The factory is stored before the
aliases are looked at, so a refused alias leaves the earlier part of a registration in place.
-/

namespace Typegen

/-- What a target is told about the run it works for. -/
structure Commission where
  schema : Schema
  graph : ReferenceGraph
  setting : Target.Setting

/-- What a target does with a schema. -/
structure Engine where
  name : String
  rules : Naming.Rules
  /-- The declarations of the schema, under the names that were assigned by the rules. -/
  map : Commission → Naming.Table → Except Failure Mapped
  /-- The files of the declarations. -/
  render : Commission → Mapped → Except Failure (List Target.RenderedFile)

/-- What a backend does. -/
def Backend.engine (b : Backend) : Engine where
  name := b.name
  rules := b.rules
  map c names := mapSchema b names c.schema c.graph
  render c m := b.renderFiles c.setting m

/-- What a target name stands for. -/
inductive Factory where
  /-- A backend with its default naming rules. -/
  | backend (b : Backend)
  /-- A target of one's own, which is given the naming rules to replace. -/
  | custom (make : Json → Except Failure Engine)
  /-- Something that is no backend. -/
  | other

/-- The known targets. -/
structure Registry where
  /-- What each name stands for. -/
  factories : List (String × Factory) := []
  /-- The name that each alias stands for. -/
  aliases : List (String × String) := []

namespace Registry

/-- A table with a key set to a value: in its place when the key occurs, at the end otherwise. -/
def set {α : Type} (key : String) (v : α) (table : List (String × α)) : List (String × α) :=
  Json.setMember key v table

/-- Whether a table has a key. -/
def has {α : Type} (table : List (String × α)) (key : String) : Bool := (table.lookup key).isSome

/-- Whether a name or alias is known. -/
def isSupported (r : Registry) (name : String) : Bool :=
  let key := Text.lowercase name
  has r.factories key || has r.aliases key

/-- The names of the targets, in order. -/
def names (r : Registry) : List String :=
  (r.factories.map Prod.fst).mergeSort fun a b => decide (a ≤ b)

/-- The target that a name or alias stands for. -/
def resolveName (r : Registry) (name : String) : Except Failure String :=
  let key := Text.lowercase name
  if has r.factories key then .ok key
  else
    match r.aliases.lookup key with
    | some target => .ok target
    | none => .error (.report ⟨.unknownTarget name r.names, {}⟩)

/-- The name that a requested target gives, which has to be a text. -/
def targetName : Json → Except Failure String
  | .string s => .ok s
  | v => .error (.noSuchMember v "lower")

/-- Whether an alias stands for another target than the one it is to be registered for. -/
def conflicts (r : Registry) (key aliasKey : String) : Bool :=
  has r.factories aliasKey || (r.aliases.lookup aliasKey).getD key != key

/-- Register aliases of a target one after the other, up to the first that is refused. -/
def registerAliases (r : Registry) (key : String) (replace : Bool) :
    List String → Registry × Except Failure Unit
  | [] => (r, .ok ())
  | name :: rest =>
    let aliasKey := Text.lowercase name
    if aliasKey = key then registerAliases r key replace rest
    else if !replace && r.conflicts key aliasKey then
      (r, .error (.report ⟨.aliasConflict name, {}⟩))
    else
      registerAliases { r with aliases := set aliasKey key r.aliases } key replace rest

/-- Register a target: the registry afterwards, and whether the registration was accepted. -/
def register (r : Registry) (name : String) (factory : Factory) (aliases : List String)
    (replace : Bool) : Registry × Except Failure Unit :=
  let key := Text.lowercase name
  if !replace && r.isSupported name then (r, .error (.report ⟨.alreadyRegistered name, {}⟩))
  else registerAliases { r with factories := set key factory r.factories } key replace aliases

/-- A target that is ready to work, with some naming rules replaced. -/
def create (r : Registry) (name : String) (naming : Json) : Except Failure Engine := do
  let key ← r.resolveName name
  match r.factories.lookup key with
  | some (.backend b) => return { b with rules := ← b.rules.merged naming }.engine
  | some (.custom make) => make naming
  | some .other => .error (.report ⟨.notABackend key, { target := some key }⟩)
  | none => .error (.missingKey key)

/-- A registry after a registration, whether it was accepted or not. -/
def registered (r : Registry) (t : Target) (aliases : List String) : Registry :=
  (r.register t.label (.backend t.backend) aliases false).1

/-- The shipped targets with their aliases. -/
def standard : Registry :=
  ((((({} : Registry).registered .typescript ["ts"]).registered .go ["golang"]).registered
    .java []).registered .python ["py"])

end Registry

end Typegen
