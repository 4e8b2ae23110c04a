import Typegen.Generation.Pool
import Typegen.Schema.Resolve

/-!
# Generating code

A run resolves the schema once, and then names, maps and renders it for every requested target.  A
target that fails does not affect the others; a fault of the schema or an unknown target stops the
run before any target is worked on.
-/

namespace Typegen.Generation

/-- The outcome of one target. -/
structure Outcome where
  target : String
  result : Except Failure Output

/-- What a run did: its messages, what was done for which target, and the outcomes unless it was
stopped. -/
structure Run where
  log : List LogEntry
  trace : List (String × Activity) := []
  outcomes : Except Failure (List Outcome)

/-- The messages on the outcome of a target. -/
def report (o : Outcome) : List LogEntry :=
  match o.result with
  | .ok out =>
    say .info (s!"Generated {out.files.length} file(s) for " ++ o.target) ::
      out.notes.map fun note => say .warning (o.target ++ ": " ++ note)
  | .error f => [say .error ("Backend " ++ o.target ++ " failed: " ++ f.message)]

/-- The outcome of a target, by the results of all. -/
def outcomeOf (results : List (String × Except Failure Output)) (p : Request.Prepared) :
    Except Failure Outcome :=
  match results.lookup p.name with
  | some result => .ok ⟨p.name, result⟩
  | none => .error (.missingKey p.name)

/-- Work on targets that are ready. -/
def runPool (j : Job) (targets : List Request.Prepared) (schedule : List Nat) : Run :=
  let pool := Pool.run j targets schedule
  match targets.mapM (outcomeOf pool.results) with
  | .error f => ⟨pool.log, pool.trace, .error f⟩
  | .ok outcomes => ⟨pool.log ++ outcomes.flatMap report, pool.trace, .ok outcomes⟩

/-- What the workers of a request are given. -/
def Request.job (r : Request) (schema : Schema) (comment : Option String) : Job :=
  { rootName := r.rootName, schema, graph := .ofSchema schema, comment }

/-- Generate code for the given targets, whose workers get on by the given schedule. -/
def runFor (r : Request) (targets : List Json) (schedule : List Nat := []) : Run :=
  let resolving := say .debug ("Resolving schema for " ++ r.rootName.plain)
  match Schema.resolve r.document with
  | .error f => { log := [resolving], outcomes := .error f }
  | .ok schema =>
    let resolved := say .debug s!"Resolved {schema.definitions.length} definition(s)"
    let prepared : Except Failure (List Request.Prepared × Option String) := do
      return (← r.prepare [] targets, ← r.comment)
    match prepared with
    | .error f => { log := [resolving, resolved], outcomes := .error f }
    | .ok (prepared, comment) =>
      let run := runPool (r.job schema comment) prepared schedule
      { run with log := [resolving, resolved] ++ run.log }

/-- Generate code for every requested target. -/
def run (r : Request) (schedule : List Nat := []) : Run :=
  match r.requested with
  | .error f => { log := [], outcomes := .error f }
  | .ok targets => runFor r targets schedule

/-- The code of a single target as one text. -/
def single (r : Request) (target : Json) : Except Failure String := do
  let _ ← r.requested
  let outcomes ← (runFor r [target]).outcomes
  match outcomes with
  | o :: _ =>
    let out ← o.result
    return "\n".intercalate (out.files.map (·.content))
  | [] => .error .outOfRange

end Typegen.Generation
