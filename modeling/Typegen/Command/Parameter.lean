import Typegen.Files.Tree
import Typegen.Json.Order

/-!
# Parameters of a command

A command has arguments, which are given by their place, and options, which are given by their name.
From the values of a run the command line can be written down again: arguments first, then the
options whose values are not their defaults.
-/

namespace Typegen.Command

/-- How an option is given. -/
inductive Usage where
  /-- By its name alone. -/
  | flag
  /-- By its name, as often as wanted. -/
  | count
  /-- By its name and a value. -/
  | value
  deriving DecidableEq, Repr

/-- A parameter of a command. -/
inductive Parameter where
  | argument (name : String)
  /-- An option with its first spelling. -/
  | option (name spelling : String) (usage : Usage) (default : Json)

/-- The name of a parameter. -/
def Parameter.name : Parameter → String
  | argument n => n
  | option n _ _ _ => n

/-- A value as it is written on the command line; the path of something that exists is shortened to
its name. -/
def writtenValue (t : Files.Tree) : Json → Except Failure String
  | .string s => do
    let p := Files.Path.ofText s
    return if ← t.contains p then p.name else s
  | v => .ok v.plain

/-- The bound on numbers that can be counted with. -/
def countBound : Int := Int.pow 2 63

/-- The bound on repetitions that memory can hold. -/
def memoryBound : Int := Int.pow 2 32

/-- A text as often as a value says. -/
def repeated (text : String) : Json → Except Failure (List String)
  | .int n =>
    if n < -countBound || countBound ≤ n then .error .tooLarge
    else if memoryBound ≤ n then .error .outOfMemory
    else .ok (List.replicate n.toNat text)
  | .bool b => .ok (if b then [text] else [])
  | v =>
    .error (.wrongType (.unusable ("can't multiply sequence by non-int of type '" ++ v.typeName ++
      "'")))

/-- What a parameter adds to the command line: its argument, and its option. -/
def written (t : Files.Tree) (values : List (String × Json)) (p : Parameter) :
    Except Failure (List String × List String) :=
  match Json.get? values p.name with
  | none => .ok ([], [])
  | some v =>
    if v.isFalsy then .ok ([], [])
    else
      match p with
      | .argument _ => do return ([← writtenValue t v], [])
      | .option _ spelling usage default =>
        if v.equals default then .ok ([], [])
        else
          match usage with
          | .flag => .ok ([], [spelling])
          | .count => do return ([], ← repeated spelling v)
          | .value => do return ([], [spelling, ← writtenValue t v])

/-- The command line of a run with the given values. -/
def commandLine (t : Files.Tree) (parameters : List Parameter) (values : List (String × Json)) :
    Except Failure String := do
  let parts ← parameters.mapM (written t values)
  return " ".intercalate ("jsl_codegen" :: parts.flatMap Prod.fst ++ parts.flatMap Prod.snd)

end Typegen.Command
