import Typegen.Command.Options
import Typegen.Command.Suggestion

/-!
# Reading the arguments of the command

Arguments are read from left to right.  An option takes its value from behind an equals sign, from
the rest of a group of short options, or from the next argument.  Behind two dashes nothing is an
option any more.
-/

namespace Typegen.Command

/-- What is wrong with how the command is used. -/
inductive UsageFault where
  | noSuchOption (spelling : String) (suggestions : List String)
  | needsArgument (spelling : String)
  | takesNoValue (spelling : String)
  | missingPath
  | extraArguments (args : List String)
  | doesNotExist (parameter path : String)
  | isFile (parameter path : String)
  | isDirectory (parameter path : String)
  /-- A reason given in words. -/
  | stated (text : String)

namespace UsageFault

/-- The wording of a fault. -/
def message : UsageFault → String
  | noSuchOption spelling [] => "No such option " ++ Text.display spelling ++ "."
  | noSuchOption spelling [s] =>
    "No such option " ++ Text.display spelling ++ ". Did you mean " ++ Text.display s ++ "?"
  | noSuchOption spelling ss =>
    "No such option " ++ Text.display spelling ++ ". (Did you mean one of: " ++
      Json.commaSeparated (ss.map Text.display) ++ "?)"
  | needsArgument spelling => "Option " ++ Text.display spelling ++ " requires an argument."
  | takesNoValue spelling => "Option " ++ Text.display spelling ++ " does not take a value."
  | missingPath => "Missing argument 'PATH'."
  | extraArguments [a] => "Got unexpected extra argument (" ++ a ++ ")"
  | extraArguments args => "Got unexpected extra arguments (" ++ " ".intercalate args ++ ")"
  | doesNotExist parameter path =>
    "Invalid value for " ++ parameter ++ ": File " ++ Text.display path ++ " does not exist."
  | isFile parameter path =>
    "Invalid value for " ++ parameter ++ ": Directory " ++ Text.display path ++ " is a file."
  | isDirectory parameter path =>
    "Invalid value for " ++ parameter ++ ": File " ++ Text.display path ++ " is a directory."
  | stated text => text

/-- Whether a fault is reported together with a hint on how to use the command. -/
def showsUsage : UsageFault → Bool
  | needsArgument _ => false
  | takesNoValue _ => false
  | _ => true

/-- A fault as it is reported. -/
def report (f : UsageFault) : String :=
  (if f.showsUsage then usageLine ++ "\nTry 'jsl-codegen --help' for help.\n\n" else "") ++
    "Error: " ++ f.message ++ "\n"

end UsageFault

/-- An option that was given, with its value if it has one. -/
structure Given where
  option : OptionSpec
  value : String

/-- The arguments of a run. -/
structure Arguments where
  /-- The options in the order in which they were given. -/
  given : List Given := []
  /-- What is no option. -/
  positional : List String := []

/-- What an argument that begins with a dash gives, when `next` follows it, and whether it takes
that. -/
abbrev Reading := List Given × Bool

/-- Take the value of an option from what follows it. -/
def takeNext (o : OptionSpec) (spelling : String) (next : Option String) :
    Except UsageFault Reading :=
  match next with
  | some v => .ok ([⟨o, v⟩], true)
  | none => .error (.needsArgument spelling)

/-- Read a long option. -/
def readLong (o : OptionSpec) (spelling : String) (attached next : Option String) :
    Except UsageFault Reading :=
  match o.value, attached with
  | some _, some v => .ok ([⟨o, v⟩], false)
  | some _, none => takeNext o spelling next
  | none, some _ => .error (.takesNoValue spelling)
  | none, none => .ok ([⟨o, ""⟩], false)

/-- Read a group of short options. -/
def readShort (next : Option String) : List Char → Except UsageFault Reading
  | [] => .ok ([], false)
  | c :: rest =>
    let spelling := String.ofList ['-', c]
    match optionFor? true spelling with
    | none => .error (.noSuchOption spelling [])
    | some o =>
      match o.value, rest with
      | some _, [] => takeNext o spelling next
      | some _, _ => .ok ([⟨o, String.ofList rest⟩], false)
      | none, _ => do
        let (more, taken) ← readShort next rest
        return (⟨o, ""⟩ :: more, taken)

/-- The spelling of an option, and what is attached to it behind an equals sign. -/
def splitAttached (cs : List Char) : String × Option String :=
  let spelling := cs.takeWhile (· ≠ '=')
  match cs.drop spelling.length with
  | _ :: v => (String.ofList spelling, some (String.ofList v))
  | [] => (String.ofList spelling, none)

/-- Read an argument that begins with a dash. -/
def readOption (arg : List Char) (next : Option String) : Except UsageFault Reading :=
  let (spelling, attached) := splitAttached arg
  match optionFor? false spelling with
  | some o => readLong o spelling attached next
  | none =>
    match arg with
    | '-' :: '-' :: _ => .error (.noSuchOption spelling (suggestions longSpellings spelling))
    | _ => readShort next (arg.drop 1)

/-- Read the arguments of a run. -/
def readArguments (args : List String) : Except UsageFault Arguments :=
  match args with
  | [] => .ok {}
  | arg :: rest =>
    match arg.toList with
    | ['-', '-'] => .ok { positional := rest }
    | '-' :: c :: cs => do
      let (given, taken) ← readOption ('-' :: c :: cs) rest.head?
      let more ← readArguments (if taken then rest.tail else rest)
      return { more with given := given ++ more.given }
    | _ => do
      let more ← readArguments rest
      return { more with positional := arg :: more.positional }
termination_by args.length
decreasing_by
  · split <;> simp only [List.length_cons, List.length_tail] <;> omega
  · simp

/-! ## Values -/

/-- Why the arguments of a run have no values. -/
inductive Refusal where
  | misuse (fault : UsageFault)
  /-- The system refuses to look at a path. -/
  | failure (f : Failure)

/-- The values of the parameters of a run. -/
abbrev Values := List (String × Json)

/-- The path of a file that exists, from the root. -/
def readFilePath (t : Files.Tree) (parameter text : String) : Except Refusal String :=
  if !Files.isPassable text then .error (.failure Files.impassable)
  else
    let l := t.normalize (Files.Path.ofText text)
    match t.visible? l with
    | some (.file _) => .ok (Files.locationText l)
    | some .directory => .error (.misuse (.isDirectory parameter text))
    | none => .error (.misuse (.doesNotExist parameter text))

/-- The path of a directory, which need not exist. -/
def readDirectoryPath (t : Files.Tree) (parameter text : String) : Except Refusal String :=
  if !Files.isPassable text then .error (.failure Files.impassable)
  else
    match t.lookUp? text with
    | some (.file _) => .error (.misuse (.isFile parameter text))
    | _ => .ok text

/-- How a fault names an option. -/
def OptionSpec.hint (o : OptionSpec) : String := " / ".intercalate (o.spellings.map Text.display)

/-- The value of an option. -/
def readValue (t : Files.Tree) (g : Given) : Except Refusal Json :=
  match g.option.value with
  | none => .ok (.bool true)
  | some .text => .ok (.string g.value)
  | some .file => (readFilePath t g.option.hint g.value).map .string
  | some .directory => (readDirectoryPath t g.option.hint g.value).map .string

/-- The options that were given, each once and with its last value, in the order in which they were
first given. -/
def lastGiven (given : List Given) : List Given :=
  (given.map (·.option)).eraseDups.filterMap fun o => given.reverse.find? fun g => g.option = o

/-- The value of an option that was not given. -/
def OptionSpec.absentValue (o : OptionSpec) : Json :=
  match o.value with
  | some _ => .null
  | none => .bool false

/-- The values of the parameters.  Options are checked in the order in which they were given, then
the path, and then that nothing else was given. -/
def readValues (t : Files.Tree) (a : Arguments) : Except Refusal Values := do
  let given ← (lastGiven a.given).mapM fun g => do return (g.option.name, ← readValue t g)
  match a.positional with
  | [] => .error (.misuse .missingPath)
  | p :: extra =>
    let path ← readFilePath t "'PATH'" p
    if extra.isEmpty then
      return options.map (fun o => (o.name, (Json.get? given o.name).getD o.absentValue)) ++
        [("path", .string path)]
    else .error (.misuse (.extraArguments extra))

end Typegen.Command
