import Typegen.Registry
import Typegen.Settings

/-!
# Requests

What is to be generated, and the targets of a request.  Every target that is asked for, under its own
name or an alias, is made ready once; one that is unknown or cannot be made ready stops the request.
-/

namespace Typegen

/-- How much a message in the log matters. -/
inductive LogLevel where
  | debug
  | info
  | warning
  | error
  deriving DecidableEq, Repr

/-- The name of a level. -/
def LogLevel.label : LogLevel → String
  | debug => "DEBUG"
  | info => "INFO"
  | warning => "WARNING"
  | error => "ERROR"

/-- The parts of the program that write to the log. -/
inductive LogSource where
  | command
  | generator
  | writer
  deriving DecidableEq, Repr

/-- The name of a part in the log. -/
def LogSource.label : LogSource → String
  | command => "jsl_codegen.jsl_codegen"
  | generator => "jsl_codegen.pipeline.generator"
  | writer => "jsl_codegen.pipeline.writer"

/-- A message in the log. -/
structure LogEntry where
  level : LogLevel
  source : LogSource
  message : String

namespace Generation

/-- A message of the generator. -/
def say (level : LogLevel) (message : String) : LogEntry := ⟨level, .generator, message⟩

/-- What is to be generated. -/
structure Request where
  /-- The name of the root type. -/
  rootName : Json
  /-- The schema document. -/
  document : Json
  settings : Settings := {}
  /-- The requested targets; none for those of the settings. -/
  targets : Option (List Json) := none
  registry : Registry := Registry.standard
  /-- The command that is named in the comment of generated files. -/
  command : Except Failure String := .ok "jsl_codegen"

namespace Request

/-- What is kept for a target, under its name or any alias. -/
def targetEntry (r : Request) (name : String) : Except Failure TargetEntry := do
  let isFor (key : String) : Bool :=
    match r.registry.isSupported key, r.registry.resolveName key with
    | true, .ok resolved => resolved = name
    | _, _ => false
  match (← r.settings.targets.toList).find? fun e => isFor e.1 with
  | some (_, e) => return e
  | none => return .settings {}

/-- The options of a target, of which the naming rules are asked for first. -/
def targetSettings (r : Request) (name : String) : Except Failure TargetSettings := do
  (← r.targetEntry name).asked "naming"

/-- The requested targets. -/
def requested (r : Request) : Except Failure (List Json) :=
  match r.targets with
  | some ts => .ok ts
  | none => r.settings.targets.listed

/-- The comment of generated files. -/
def comment (r : Request) : Except Failure (Option String) :=
  if r.settings.addComment.isTruthy then do
    return some ("Generated by jsl_codegen v0.1.0 : " ++ (← r.command))
  else .ok none

/-- A target with its options, ready to work. -/
structure Prepared where
  name : String
  settings : TargetSettings
  engine : Engine

/-- The name of the target that is asked for. -/
def targetOf (r : Request) (requested : Json) : Except Failure String := do
  r.registry.resolveName (← Registry.targetName requested)

/-- Make a target ready. -/
def ready (r : Request) (name : String) : Except Failure Prepared := do
  let settings ← r.targetSettings name
  return ⟨name, settings, ← r.registry.create name (← settings.namingRules)⟩

/-- Make some targets ready; a target that is asked for again is ready already. -/
def prepare (r : Request) (found : List Prepared) : List Json → Except Failure (List Prepared)
  | [] => .ok found
  | requested :: rest => do
    let name ← r.targetOf requested
    if found.any fun p => p.name = name then r.prepare found rest
    else r.prepare (found ++ [← r.ready name]) rest

end Request

end Generation

end Typegen
