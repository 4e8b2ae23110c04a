import Typegen.Schema.Fault

/-!
# Reports

An error that concerns the user's schema or request.  A report has a cause and says where it arose:
the target, the definition, the form and the place in the document, as far as they are known.
-/

namespace Typegen

/-- The families of reports. -/
inductive ReportKind where
  | general
  | schema
  | unsupportedForm
  | exhaustedNames
  | registry
  deriving DecidableEq, Repr

/-- Why a report is made. -/
inductive Cause where
  /-- The document is not a schema. -/
  | schema (fault : Schema.Fault)
  /-- A target has no way to express a form. -/
  | unsupportedForm (form : Schema.Form) (backend : String)
  /-- A target has no spelling for a primitive type. -/
  | unsupportedType (type : Schema.Primitive) (backend : String)
  /-- No numbered variant of a name is free within the length limit. -/
  | exhausted (base : String) (limit : Json)
  /-- A target name is taken. -/
  | alreadyRegistered (name : String)
  /-- An alias is taken. -/
  | aliasConflict (name : String)
  /-- No target has the name. -/
  | unknownTarget (name : String) (available : List String)
  /-- What is registered under the name is no backend. -/
  | notABackend (name : String)
  /-- A reason given in words. -/
  | stated (kind : ReportKind) (text : String)

namespace Cause

/-- The family that a cause belongs to. -/
def kind : Cause → ReportKind
  | schema _ => .schema
  | unsupportedForm _ _ => .unsupportedForm
  | unsupportedType _ _ => .unsupportedForm
  | exhausted _ _ => .exhaustedNames
  | alreadyRegistered _ => .registry
  | aliasConflict _ => .registry
  | unknownTarget _ _ => .registry
  | notABackend _ => .registry
  | stated k _ => k

/-- The wording of a cause. -/
def message : Cause → String
  | schema fault => fault.message
  | unsupportedForm form backend =>
    "Form " ++ form.label ++ " cannot be represented in " ++ backend
  | unsupportedType type backend => "Type " ++ type.label ++ " is not supported by " ++ backend
  | exhausted base limit =>
    "Cannot derive a unique identifier from " ++ Text.display base ++ " within " ++
      limit.display ++ " characters"
  | alreadyRegistered name => "Backend '" ++ name ++ "' is already registered"
  | aliasConflict name => "Alias '" ++ name ++ "' conflicts with an existing backend"
  | unknownTarget name available =>
    "No backend registered for target: " ++ name ++ ". Available: " ++
      Json.commaSeparated available
  | notABackend name => "Backend '" ++ name ++ "' does not implement the type-mapping contract"
  | stated _ text => text

end Cause

/-- Where a report arose; what is not known is missing. -/
structure Context where
  path : Option String := none
  definition : Option String := none
  form : Option String := none
  target : Option String := none
  deriving DecidableEq, Repr

/-- The parts of a context in words; empty texts are left out like missing ones. -/
def Context.parts (c : Context) : List String :=
  let part (given : Option String) (word : String → String) : List String :=
    match given with
    | some s => if s = "" then [] else [word s]
    | none => []
  part c.target ("target " ++ ·) ++ part c.definition (fun s => "definition '" ++ s ++ "'") ++
    part c.form ("form " ++ ·) ++ part c.path ("at " ++ ·)

/-- A cause and where it arose. -/
structure Report where
  cause : Cause
  context : Context := {}

namespace Report

/-- A report in words: the cause, and the context between parentheses. -/
def message (r : Report) : String :=
  match r.context.parts with
  | [] => r.cause.message
  | parts => r.cause.message ++ " (" ++ Json.commaSeparated parts ++ ")"

/-- The report with a target, unless it has one. -/
def forTarget (r : Report) (target : String) : Report :=
  match r.context.target with
  | some _ => r
  | none => { r with context := { r.context with target := some target } }

end Report

end Typegen
