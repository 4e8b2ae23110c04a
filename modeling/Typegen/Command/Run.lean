import Typegen.Command.Arguments
import Typegen.Document
import Typegen.Files.Writer
import Typegen.Generation
import Typegen.Text.Newline
import Typegen.Text.Terminal

/-!
# Running the command

The command reads the schema at a path, generates code for the targets that have an output directory,
and writes it.  Options given on the command line win over those of a configuration file.  A target
that fails does not keep the others from being written.
-/

namespace Typegen.Command

/-- What the command says. -/
inductive Message where
  | output (text : String)
  | error (text : String)
  | log (entry : LogEntry)

/-- How a run ends. -/
inductive Ending where
  /-- With an exit code. -/
  | exit (code : Nat)
  /-- With a fault in how the command was used. -/
  | misused (fault : UsageFault)
  /-- With a failure that is not handled. -/
  | failed (failure : Failure)

/-- What a run did. -/
structure Outcome where
  tree : Files.Tree
  messages : List Message
  ending : Ending
  /-- Whether all messages of the log are shown. -/
  verbose : Bool := false

namespace Outcome

/-- The exit code. -/
def exitCode (o : Outcome) : Nat :=
  match o.ending with
  | .exit code => code
  | .misused _ => 2
  | .failed _ => 1

/-- The text of a log message, if it is shown. -/
def logText (verbose : Bool) (e : LogEntry) : String :=
  let isShown := match e.level with
    | .debug => verbose
    | .info => verbose
    | .warning => true
    | .error => true
  if isShown then e.level.label ++ " " ++ e.source.label ++ ": " ++ e.message ++ "\n" else ""

/-- A text that the command says itself, which has no instructions for a terminal. -/
def plainText (text : String) : String := String.ofList (Text.dropControl text.toList)

/-- A text with its lines ended by line feeds alone. -/
def unifyEnds (text : String) : String := String.ofList (Text.dropReturns text.toList)

/-- What is written to the standard output. -/
def standardOutput (o : Outcome) : String :=
  unifyEnds (String.join (o.messages.map fun m =>
    match m with
    | .output text => plainText text
    | _ => ""))

/-- What is written to the standard error. -/
def standardError (o : Outcome) : String :=
  unifyEnds (String.join (o.messages.map fun m =>
    match m with
    | .output _ => ""
    | .error text => plainText text
    | .log e => logText o.verbose e) ++
  match o.ending with
  | .misused fault => plainText fault.report
  | _ => "")

/-- The failure that was not handled. -/
def failure? (o : Outcome) : Option Failure :=
  match o.ending with
  | .failed f => some f
  | _ => none

end Outcome

/-! ## Settings -/

/-- The text of a file, with its line breaks unified. -/
def readText (t : Files.Tree) (path : String) : Except Failure String :=
  match t.find? (Files.Path.ofText path) with
  | some (.file content) => .ok (String.ofList (Text.unifyNewlines content.toList))
  | some .directory => .error .isDirectory
  | none => .error .noSuchFile

/-- The settings of a configuration file. -/
def loadSettings (t : Files.Tree) : Json → Except Failure Settings
  | .string path => do Settings.ofJson (← Document.parse (← readText t path))
  | _ => .ok {}

/-- The settings with every target under its own name; of several names for one target the last
counts. -/
def canonicalTargets (r : Registry) (s : Settings) : Except Failure Settings := do
  let targets ← (← s.targets.toList).foldlM (fun table (key, e) => do
    return Json.setMember (← r.resolveName key) e table) []
  return { s with targets := .entries targets }

/-- The options that set the output directory of a target. -/
def outOptions : List (Target × String) :=
  [(.typescript, "ts_out"), (.go, "go_out"), (.java, "java_out"), (.python, "python_out")]

/-- The value of a parameter. -/
def valueOf (vs : Values) (name : String) : Json := (Json.get? vs name).getD .null

/-- The settings with those of the command line. -/
def overrideSettings (vs : Values) (s : Settings) : Except Failure Settings := do
  let s ← outOptions.foldlM (fun s (t, option) =>
    let dir := valueOf vs option
    if dir.isTruthy then s.updateTarget t.label "out_dir" fun ts => { ts with outDir := dir }
    else .ok s) s
  let package := valueOf vs "java_package"
  let s ← if package.isTruthy then
      s.updateTarget Target.java.label "package" fun ts => { ts with package := package }
    else .ok s
  return { s with
    force := if (valueOf vs "force").isTruthy then .bool true else s.force
    addComment := if (valueOf vs "no_generation_comment").isTruthy then .bool false
      else s.addComment }

/-- The name of the root type: the one given, else that of the settings, else the name of the
file. -/
def rootName (vs : Values) (s : Settings) : Json :=
  match valueOf vs "name" with
  | .null =>
    if s.rootName.isTruthy then s.rootName
    else
      .string (Text.Case.pascal.convert (Files.Path.ofText (valueOf vs "path").plain).stem)
  | name => name

/-- The targets that have an output directory. -/
def requestedTargets (s : Settings) : Except Failure (List String) := do
  let all ← (← s.targets.toList).mapM fun (name, e) => do return (name, ← e.asked "out_dir")
  return (all.filter fun t => t.2.outDir.isTruthy).map Prod.fst

/-! ## Writing -/

/-- The messages on written files. -/
def writtenMessages (target : String) (w : Files.Written) : List Message :=
  let logs := w.paths.map fun p => Message.log ⟨.debug, .writer, "Wrote " ++ p.text⟩
  match w.failure with
  | some _ => logs
  | none => logs ++ w.paths.map fun p => .output (target ++ ": wrote " ++ p.text ++ "\n")

/-- The message on a target that failed. -/
def failureMessage (target : String) (f : Failure) : Message :=
  .error (target ++ ": " ++ f.message ++ "\n")

/-- The output directory of a target, which is added when nothing is kept for it. -/
def outDirFor (s : Settings) (target : String) : Except Failure (Json × Settings) := do
  let (e, s) ← s.target target
  return ((← e.asked "out_dir").outDir, s)

/-- Write the files of the targets one after the other; `ok` tells whether all have succeeded so
far. -/
def writeTargets (s : Settings) (t : Files.Tree) (ok : Bool) :
    List Generation.Outcome → Files.Tree × List Message × Ending
  | [] => (t, [], .exit (if ok then 0 else 1))
  | o :: rest =>
    match o.result with
    | .error f =>
      let (t, ms, ending) := writeTargets s t false rest
      (t, failureMessage o.target f :: ms, ending)
    | .ok out =>
      match outDirFor s o.target with
      | .error f => (t, [], .failed f)
      | .ok (outDir, s) =>
        match outDir with
        | .string dir =>
          let w := Files.writeAll t s.force.isTruthy dir out.files
          let said := writtenMessages o.target w
          match w.failure with
          | none =>
            let (t, ms, ending) := writeTargets s w.tree ok rest
            (t, said ++ ms, ending)
          | some f =>
            match f with
            | .fileExists _ =>
              let (t, ms, ending) := writeTargets s w.tree false rest
              (t, said ++ failureMessage o.target f :: ms, ending)
            | .obstructed _ =>
              let (t, ms, ending) := writeTargets s w.tree false rest
              (t, said ++ failureMessage o.target f :: ms, ending)
            | _ => (w.tree, said, .failed f)
        | v => (t, [], .failed (.wrongType (.unusable
            ("expected str, bytes or os.PathLike object, not " ++ v.typeName))))

/-! ## The run -/

/-- The end of a run whose targets could not be generated. -/
def stopped (t : Files.Tree) (said : List Message) (f : Failure) : Outcome :=
  match f with
  | .report r =>
    match r.cause.kind with
    | .schema =>
      { tree := t, messages := said ++ [.error ("Schema error: " ++ f.message ++ "\n")],
        ending := .exit 1 }
    | _ => { tree := t, messages := said, ending := .failed f }
  | .badOption text =>
    { tree := t, messages := said,
      ending := .misused (.stated ("Invalid configuration: " ++ text)) }
  | _ => { tree := t, messages := said, ending := .failed f }

/-- Generate and write the code for the given targets. -/
def generate (t : Files.Tree) (vs : Values) (s : Settings) (r : Registry)
    (targets : List String) : Outcome :=
  let name := rootName vs s
  let start := Message.log
    ⟨.debug, .command, "Generating " ++ Json.commaSeparated targets ++ " for " ++ name.plain⟩
  let document : Except Failure Json := do
    Document.load (← readText t (valueOf vs "path").plain)
  match document with
  | .error f => stopped t [start] f
  | .ok d =>
    let run := Generation.run
      { rootName := name, document := d, settings := s, targets := some (targets.map .string),
        registry := r, command := commandLine t parameters vs }
    let said := start :: run.log.map .log
    match run.outcomes with
    | .error f => stopped t said f
    | .ok outcomes =>
      let (t, ms, ending) := writeTargets s t true outcomes
      { tree := t, messages := said ++ ms, ending := ending }

/-- The end of a run whose targets cannot be told. -/
def unknownTargets (f : Failure) : Ending :=
  match f with
  | .report r =>
    match r.cause.kind with
    | .registry => .misused (.stated f.message)
    | _ => .failed f
  | _ => .failed f

/-- Run the command with the values of its parameters. -/
def runWith (t : Files.Tree) (vs : Values) : Outcome :=
  let stop (e : Ending) : Outcome := { tree := t, messages := [], ending := e }
  let r := Registry.standard
  match loadSettings t (valueOf vs "config") with
  | .error f => stop (.failed f)
  | .ok s =>
    match canonicalTargets r s with
    | .error f => stop (unknownTargets f)
    | .ok s =>
      let requested : Except Failure (Settings × List String) := do
        let s ← overrideSettings vs s
        return (s, ← requestedTargets s)
      match requested with
      | .error f => stop (.failed f)
      | .ok (_, []) =>
        stop (.misused (.stated
          "No output requested: use --ts-out, --go-out, --java-out or --python-out"))
      | .ok (s, targets) => generate t vs s r targets

/-- Run the command. -/
def run (t : Files.Tree) (args : List String) : Outcome :=
  let stop (e : Ending) : Outcome := { tree := t, messages := [], ending := e }
  match readArguments args with
  | .error fault => stop (.misused fault)
  | .ok a =>
    if a.given.any fun g => g.option = helpOption then
      { tree := t, messages := [.output helpText], ending := .exit 0 }
    else
      match readValues t a with
      | .error (.misuse fault) => stop (.misused fault)
      | .error (.failure f) => stop (.failed f)
      | .ok vs => { runWith t vs with verbose := (valueOf vs "verbose").isTruthy }

end Typegen.Command
