import Typegen.Command.Parameter

/-!
# Options of the command

The options that the command understands, their spellings, and the text that explains them.
-/

namespace Typegen.Command

/-- What the value of an option is. -/
inductive ValueKind where
  /-- Any text. -/
  | text
  /-- The path of a file that exists. -/
  | file
  /-- The path of a directory, which need not exist. -/
  | directory
  deriving DecidableEq, Repr

/-- An option of the command. -/
structure OptionSpec where
  /-- The name under which its value is kept. -/
  name : String
  /-- The spellings, the first of which is used when the command line is written down. -/
  spellings : List String
  /-- What its value is; none for an option that is switched on. -/
  value : Option ValueKind
  deriving DecidableEq, Repr

/-- The options, in order. -/
def options : List OptionSpec :=
  [⟨"name", ["--name", "-n"], some .text⟩,
    ⟨"config", ["--config", "-c"], some .file⟩,
    ⟨"ts_out", ["--ts-out"], some .directory⟩,
    ⟨"go_out", ["--go-out"], some .directory⟩,
    ⟨"java_out", ["--java-out"], some .directory⟩,
    ⟨"java_package", ["--java-package"], some .text⟩,
    ⟨"python_out", ["--python-out"], some .directory⟩,
    ⟨"force", ["--force"], none⟩,
    ⟨"no_generation_comment", ["--no-generation-comment"], none⟩,
    ⟨"verbose", ["--verbose", "-v"], none⟩]

/-- The option that explains the command. -/
def helpOption : OptionSpec := ⟨"help", ["--help"], none⟩

/-- All options that are understood. -/
def allOptions : List OptionSpec := options ++ [helpOption]

/-- Whether a spelling is a single letter behind a single dash. -/
def isShort (spelling : String) : Bool :=
  match spelling.toList with
  | ['-', c] => c ≠ '-'
  | _ => false

/-- The option with a spelling of one or more letters. -/
def optionFor? (short : Bool) (spelling : String) : Option OptionSpec :=
  allOptions.find? fun o => o.spellings.any fun s => s = spelling && isShort s = short

/-- The long spellings of all options. -/
def longSpellings : List String :=
  (allOptions.flatMap (·.spellings)).filter fun s => !isShort s

/-- An option as a parameter. -/
def OptionSpec.parameter (o : OptionSpec) : Parameter :=
  let spelling := o.spellings.headD ""
  match o.value with
  | some _ => .option o.name spelling .value .null
  | none => .option o.name spelling .flag (.bool false)

/-- The parameters of the command. -/
def parameters : List Parameter := options.map (·.parameter) ++ [.argument "path"]

/-- The first line on how to use the command. -/
def usageLine : String := "Usage: jsl-codegen [OPTIONS] PATH"

/-- The text that explains the command. -/
def helpText : String :=
  "\n".intercalate
    [usageLine,
      "",
      "  Generate type declarations from the JSL/JTD schema at PATH.",
      "",
      "Options:",
      "  -n, --name TEXT          Root type name (default: input file name)",
      "  -c, --config FILE",
      "  --ts-out DIRECTORY       Output directory for TypeScript",
      "  --go-out DIRECTORY       Output directory (and package name) for Go",
      "  --java-out DIRECTORY     Output directory for Java",
      "  --java-package TEXT      Package of the generated Java classes",
      "  --python-out DIRECTORY   Output directory for Python",
      "  --force                  Overwrite existing files",
      "  --no-generation-comment  Omit the 'Generated by' header",
      "  -v, --verbose            Log each pipeline stage",
      "  --help                   Show this message and exit.",
      ""]

end Typegen.Command
