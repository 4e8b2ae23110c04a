import Typegen.Generation.Request
import Typegen.Naming.Assign

/-!
# Workers

Every target is worked on by a worker of its own, which names, maps and renders the schema.  Workers
share nothing but what they were given at the start, and they get on in any order; results are
collected in any order as well.  A schedule tells whose turn it is.
-/

namespace Typegen.Generation

open Request (Prepared)

/-- What a target yields. -/
structure Output where
  declarations : List Declaration
  notes : List String
  files : List Target.RenderedFile

/-- What all workers are given. -/
structure Job where
  /-- The name of the root type. -/
  rootName : Json
  schema : Schema
  graph : ReferenceGraph
  /-- The comment of generated files. -/
  comment : Option String

/-- The failure of a target, which is named in it unless another one is. -/
def failureFor (target : String) : Failure → Failure
  | .report r =>
    match r.cause.kind with
    | .unsupportedForm => .report (r.forTarget target)
    | .exhaustedNames => .report (r.forTarget target)
    | _ => .report r
  | f => f

namespace Job

/-- What a target is told about the run. -/
def commission (j : Job) (p : Prepared) (names : Naming.Table) : Commission where
  schema := j.schema
  graph := j.graph
  setting :=
    { rootName := .string names.root, package := p.settings.package, outDir := p.settings.outDir,
      comment := j.comment }

/-- Name the schema for a target. -/
def name (j : Job) (p : Prepared) : Except Failure Naming.Table :=
  (Naming.assign p.engine.rules j.schema j.rootName).mapError (failureFor p.name)

/-- Map the schema for a target. -/
def map (j : Job) (p : Prepared) (names : Naming.Table) : Except Failure Mapped :=
  (p.engine.map (j.commission p names) names).mapError (failureFor p.name)

/-- Render what the schema was mapped to. -/
def render (j : Job) (p : Prepared) (names : Naming.Table) (m : Mapped) : Except Failure Output := do
  let files ← (p.engine.render (j.commission p names) m).mapError (failureFor p.name)
  return ⟨m.declarations, m.notes, files⟩

end Job

/-- How far a worker has got. -/
inductive Progress where
  | submitted
  | named (names : Naming.Table)
  | mapped (names : Naming.Table) (m : Mapped)
  | finished (result : Except Failure Output)
  /-- The result has been collected. -/
  | collected (result : Except Failure Output)

/-- What is done in one turn. -/
inductive Activity where
  | naming
  | mapping
  | rendering
  | collecting
  deriving DecidableEq, Repr

/-- What is to be done next. -/
def Progress.next? : Progress → Option Activity
  | submitted => some .naming
  | named _ => some .mapping
  | mapped _ _ => some .rendering
  | finished _ => some .collecting
  | collected _ => none

/-- The number of types in a table. -/
def typeCount (t : Naming.Table) : Nat := t.nodes.length + t.definitions.length

/-- One turn of the worker of a target, and its messages. -/
def Progress.advance (j : Job) (p : Prepared) : Progress → Progress × List LogEntry
  | submitted =>
    match j.name p with
    | .error f => (finished (.error f), [])
    | .ok names =>
      (named names, [say .debug (p.name ++ s!": named {typeCount names} type(s)")])
  | named names =>
    match j.map p names with
    | .error f => (finished (.error f), [])
    | .ok m =>
      (mapped names m,
        [say .debug (p.name ++ s!": mapped {m.declarations.length} declaration(s)")])
  | mapped names m => (finished (j.render p names m), [])
  | finished result => (collected result, [])
  | collected result => (collected result, [])

/-- A worker for a target. -/
structure Worker where
  target : Prepared
  progress : Progress := .submitted

/-- The workers of a run, and what has come of them so far. -/
structure Pool where
  workers : List Worker
  log : List LogEntry := []
  /-- What was done for which target, in order. -/
  trace : List (String × Activity) := []
  /-- The collected results by target, in order. -/
  results : List (String × Except Failure Output) := []

namespace Pool

/-- The results after a turn of a worker. -/
def collect (results : List (String × Except Failure Output)) (w : Worker) :
    List (String × Except Failure Output) :=
  match w.progress with
  | .finished result => Json.setMember w.target.name result results
  | _ => results

/-- Give a worker a turn. -/
def step (j : Job) (pool : Pool) (i : Nat) : Pool :=
  match pool.workers[i]? with
  | none => pool
  | some w =>
    match w.progress.next? with
    | none => pool
    | some activity =>
      let (progress, said) := w.progress.advance j w.target
      { workers := pool.workers.set i { w with progress }
        log := pool.log ++ said
        trace := pool.trace ++ [(w.target.name, activity)]
        results := collect pool.results w }

/-- As many turns as any worker needs, for one worker after the other. -/
def inTurn (workers : Nat) : List Nat := (List.range workers).flatMap (List.replicate 4)

/-- A worker for every target. -/
def start (targets : List Prepared) : Pool where
  workers := targets.map fun target => { target }

/-- Give the workers turns by a schedule; those that have not finished then do so one after the
other. -/
def run (j : Job) (targets : List Prepared) (schedule : List Nat) : Pool :=
  (schedule ++ inTurn targets.length).foldl (step j) (start targets)

end Pool

end Typegen.Generation
