import Typegen.Failure
import Typegen.Json.Order

/-!
# Settings

The options of a run, as a configuration file gives them.  Values are not checked here: an option of
the wrong type shows where it is used.  Keys that are no options are ignored, with three exceptions.  A
value under a key that coincides with an operation on settings takes the operation's place, so the
operation fails from then on.  One key replaces all options at once, by whatever it holds: those that
it leaves out fall back to their defaults if they have a fixed one, and are absent otherwise.  Two keys
cannot be set, so that there are no settings (`fixedKey?`).
-/

namespace Typegen

/-- The options of one target. -/
structure TargetSettings where
  /-- Where the generated files go. -/
  outDir : Json := .string ""
  /-- The package of the generated files. -/
  package : Json := .string ""
  /-- Naming rules to replace, unless they are absent. -/
  naming : Option Json := some (.object [])
  /-- Whether the options can be listed. -/
  canList : Bool := true

/-- What is kept for a target. -/
inductive TargetEntry where
  | settings (t : TargetSettings)
  /-- A value that was put in the place of settings. -/
  | other (v : Json)

/-- What is kept for the targets. -/
inductive TargetTable where
  /-- An entry for each target, in order. -/
  | entries (list : List (String × TargetEntry))
  /-- A value that was put in the place of a table. -/
  | other (v : Json)
  | absent

/-- The options of a run. -/
structure Settings where
  /-- The name of the root type. -/
  rootName : Json := .string ""
  /-- Whether files begin with a comment on how they were generated. -/
  addComment : Json := .bool true
  /-- Whether files are overwritten. -/
  force : Json := .bool false
  /-- The options of the targets. -/
  targets : TargetTable := .entries []
  /-- Whether the options can be listed. -/
  canList : Bool := true
  /-- Whether the options of a target can be asked for. -/
  canLookUp : Bool := true

/-- The members of an object; other values have none. -/
def membersOrFail : Json → Except Failure (List (String × Json))
  | .object members => .ok members
  | v => .error (.noSuchMember v "items")

/-- The failure of a key that cannot be set. -/
def fixedKey? (key : String) (v : Json) : Option Failure :=
  match key with
  | "__class__" => some (.wrongType (.unusable "the class of settings is fixed"))
  | "__weakref__" => some (.noSuchMember v "__weakref__")
  | _ => none

/-- The key that replaces all options at once. -/
def replacementKey : String := "__dict__"

/-- The options that replace all others. -/
def replacement : Json → Except Failure (List (String × Json))
  | .object members => .ok members
  | v => .error (.wrongType (.unusable ("settings cannot be replaced by '" ++ v.typeName ++ "'")))

namespace TargetSettings

/-- The options of a target of which only those in a replacement are given. -/
def ofReplacement (members : List (String × Json)) : TargetSettings :=
  { outDir := (Json.get? members "out_dir").getD (.string "")
    package := (Json.get? members "package").getD (.string "")
    naming := Json.get? members "naming"
    canList := !Json.hasKey members "to_dict" }

/-- The options of a target with one set. -/
def setOption (t : TargetSettings) (key : String) (v : Json) : Except Failure TargetSettings :=
  match fixedKey? key v with
  | some f => .error f
  | none =>
    if key = replacementKey then (replacement v).map ofReplacement
    else
      match key with
      | "out_dir" => .ok { t with outDir := v }
      | "package" => .ok { t with package := v }
      | "naming" => .ok { t with naming := t.naming.map fun _ => v }
      | "to_dict" => .ok { t with canList := false }
      | _ => .ok t

/-- The options of a target.  A value that counts as nothing gives none. -/
def ofJson (v : Json) : Except Failure TargetSettings := do
  let members ← if v.isFalsy then pure [] else membersOrFail v
  members.foldlM (fun t m => t.setOption m.1 m.2) {}

/-- The naming rules to replace. -/
def namingRules (t : TargetSettings) : Except Failure Json :=
  match t.naming with
  | some v => .ok v
  | none => .error (.absentOption "naming")

end TargetSettings

namespace TargetEntry

/-- The options of a target; a value in their place does not have the one that is asked for. -/
def asked (option : String) : TargetEntry → Except Failure TargetSettings
  | settings t => .ok t
  | other v => .error (.noSuchMember v option)

end TargetEntry

namespace TargetTable

/-- The table that a value put in its place stands for. -/
def ofReplacement : Option Json → TargetTable
  | some (.object members) => .entries (members.map fun (name, v) => (name, .other v))
  | some v => .other v
  | none => .absent

/-- The entries of a table. -/
def toList : TargetTable → Except Failure (List (String × TargetEntry))
  | entries list => .ok list
  | other v => .error (.noSuchMember v "items")
  | absent => .error (.absentOption "targets")

/-- What a table lists as its targets. -/
def listed : TargetTable → Except Failure (List Json)
  | entries list => .ok (list.map fun e => .string e.1)
  | other (.array items) => .ok items
  | other (.string s) => .ok (s.toList.map fun c => .string (String.singleton c))
  | other v => .error (.wrongType (.unusable ("'" ++ v.typeName ++ "' object is not iterable")))
  | absent => .error (.absentOption "targets")

/-- The entry of a target and the table with it; a target without an entry gets one. -/
def lookUp (table : TargetTable) (name : String) : Except Failure (TargetEntry × TargetTable) :=
  match table with
  | entries list =>
    match list.lookup name with
    | some e => .ok (e, table)
    | none => .ok (.settings {}, entries (list ++ [(name, .settings {})]))
  | other v => .error (.wrongType (.unusable ("'" ++ v.typeName ++ "' object has no targets")))
  | absent => .error (.absentOption "targets")

/-- The table with the entry of a target set. -/
def set (table : TargetTable) (name : String) (e : TargetEntry) : TargetTable :=
  match table with
  | entries list => entries (Json.setMember name e list)
  | t => t

end TargetTable

namespace Settings

/-- The options of which only those in a replacement are given. -/
def ofReplacement (members : List (String × Json)) : Settings :=
  { rootName := (Json.get? members "root_name").getD (.string "")
    addComment := (Json.get? members "add_generation_comment").getD (.bool true)
    force := (Json.get? members "force").getD (.bool false)
    targets := .ofReplacement (Json.get? members "targets")
    canList := !Json.hasKey members "to_dict"
    canLookUp := !Json.hasKey members "target" }

/-- The options with one set. -/
def setOption (s : Settings) (key : String) (v : Json) : Except Failure Settings :=
  match fixedKey? key v with
  | some f => .error f
  | none =>
    if key = replacementKey then (replacement v).map ofReplacement
    else
      match key with
      | "root_name" => .ok { s with rootName := v }
      | "add_generation_comment" => .ok { s with addComment := v }
      | "force" => .ok { s with force := v }
      | "targets" => do
        let targets ← (← membersOrFail v).mapM fun (name, t) => do
          return (name, TargetEntry.settings (← TargetSettings.ofJson t))
        return { s with targets := .entries targets }
      | "to_dict" => .ok { s with canList := false }
      | "target" => .ok { s with canLookUp := false }
      | _ => .ok s

/-- The options that a configuration gives. -/
def ofJson (v : Json) : Except Failure Settings := do
  (← membersOrFail v).foldlM (fun s m => s.setOption m.1 m.2) {}

/-- What is kept for a target, which is added when there is nothing. -/
def target (s : Settings) (name : String) : Except Failure (TargetEntry × Settings) :=
  if !s.canLookUp then .error (.wrongType (.unusable "the lookup of targets was replaced"))
  else do
    let (e, table) ← s.targets.lookUp name
    return (e, { s with targets := table })

/-- The settings with an option of a target changed; the target is added when nothing is kept for
it. -/
def updateTarget (s : Settings) (name option : String)
    (change : TargetSettings → TargetSettings) : Except Failure Settings := do
  let (e, s) ← s.target name
  let t ← e.asked option
  return { s with targets := s.targets.set name (.settings (change t)) }

end Settings

/-! ## Listing -/

/-- The options of a target in a listing. -/
structure TargetListing where
  outDir : Json
  package : Json
  /-- The naming rules; those given as a list of pairs may have keys that are no texts. -/
  naming : List (Json × Json)

/-- The options of a run in a listing. -/
structure SettingsListing where
  rootName : Json
  addComment : Json
  force : Json
  targets : List (String × TargetListing)

/-- The failure of a listing that was replaced. -/
def listingReplaced : Failure := .wrongType (.unusable "the listing of settings was replaced")

/-- A key that a member can have. -/
def memberKey : Json → Except Failure Json
  | .array _ => .error (.wrongType (.unusable "unhashable type: 'list'"))
  | .object _ => .error (.wrongType (.unusable "unhashable type: 'dict'"))
  | v => .ok v

/-- A member that an item of a list of pairs stands for. -/
def pairMember (index : Nat) : Json → Except Failure (Json × Json)
  | .array [k, v] => do return (← memberKey k, v)
  | .array items => .error (badLength items.length)
  | .string s =>
    match s.toList with
    | [k, v] => .ok (.string (String.singleton k), .string (String.singleton v))
    | cs => .error (badLength cs.length)
  | .object [(k, _), (v, _)] => .ok (.string k, .string v)
  | .object members => .error (badLength members.length)
  | _ => .error (.wrongType (.unusable "an item is no pair"))
where
  /-- The failure of an item that is no pair. -/
  badLength (n : Nat) : Failure :=
    .badOption s!"dictionary update sequence element #{index} has length {n}; 2 is required"

/-- Whether two keys are the same. -/
def sameKey : Json → Json → Bool
  | .string a, .string b => a = b
  | a, b => a.sameElement b

/-- Members with a key set to a value: in its place when the key occurs, at the end otherwise. -/
def setPair (key v : Json) : List (Json × Json) → List (Json × Json)
  | [] => [(key, v)]
  | (k, w) :: rest => if sameKey k key then (k, v) :: rest else (k, w) :: setPair key v rest

/-- The members of an object, or of a list of pairs. -/
def namingMembers : Json → Except Failure (List (Json × Json))
  | .object members => .ok (members.map fun (k, v) => (.string k, v))
  | .array items => do
    let pairs ← items.zipIdx.mapM fun (v, i) => pairMember i v
    return pairs.foldl (fun ms m => setPair m.1 m.2 ms) []
  | .string s => do
    let _ ← s.toList.mapM fun c => pairMember 0 (.string (String.singleton c))
    return []
  | _ => .error (.wrongType (.unusable "naming rules are no object"))

/-- The options of a target, listed. -/
def TargetSettings.list (t : TargetSettings) : Except Failure TargetListing := do
  if !t.canList then .error listingReplaced
  return ⟨t.outDir, t.package, ← namingMembers (← t.namingRules)⟩

/-- What is kept for a target, listed. -/
def TargetEntry.list (e : TargetEntry) : Except Failure TargetListing := do
  (← e.asked "to_dict").list

/-- The options, listed. -/
def Settings.list (s : Settings) : Except Failure SettingsListing := do
  if !s.canList then .error listingReplaced
  let targets ← (← s.targets.toList).mapM fun (name, e) => do return (name, ← e.list)
  return ⟨s.rootName, s.addComment, s.force, targets⟩

end Typegen
