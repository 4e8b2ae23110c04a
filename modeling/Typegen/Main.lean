import Typegen.Command.Run

/-!
# The command line

Reads from the disk what a run looks at, runs the command on that, and carries out what it did.
Which files a run looks at is found by running it: a run that would make files or directories that
have not been looked up is repeated after that has been done.
-/

namespace Typegen.Main

open Files (Entry Location Tree)

/-- What stands at a location on the disk. -/
def probe (l : Location) : IO (Option Entry) := do
  let path := (← IO.currentDir) / Files.locationText l
  if ← path.isDir then return some .directory
  else if ← path.pathExists then return some (.file (← IO.FS.readFile path))
  else return none

/-- A location and those above it. -/
def withAncestors (l : Location) : List Location :=
  (List.range (l.length + 1)).map l.take

/-- The tree with what stands at some locations on the disk. -/
def snapshot (current : Location) (ls : List Location) : IO Tree := do
  let mut tree : Tree := ⟨current, []⟩
  for l in ls do
    if let some e ← probe l then
      tree := tree.set l e
  return tree

/-- The texts in the arguments that may be paths. -/
def pathTexts (args : List String) : List String :=
  args.flatMap fun a =>
    [a, String.ofList (a.toList.drop 2), "=".intercalate ((a.splitOn "=").drop 1)]

/-- The locations that a run starts from. -/
def argumentLocations (current : Location) (args : List String) : List Location :=
  (pathTexts args).map fun text => (⟨current, []⟩ : Tree).normalize (Files.Path.ofText text)

/-- Run the command on what is on the disk. -/
partial def settle (current : Location) (args : List String) (known : List Location) :
    IO (Tree × Command.Outcome) := do
  let all := (known.flatMap withAncestors).eraseDups
  let before ← snapshot current all
  let outcome := Command.run before args
  let new := (outcome.tree.entries.map Prod.fst).filter fun l => !all.contains l
  if new.isEmpty then return (before, outcome) else settle current args (all ++ new)

/-- Carry out the changes of a run. -/
def carryOut (before after : Tree) : IO Unit := do
  for (l, e) in after.entries do
    if before.get? l ≠ some e then
      match e with
      | .directory => IO.FS.createDirAll (Files.locationText l)
      | .file content => IO.FS.writeFile (Files.locationText l) content

end Typegen.Main

/-- Run the command with the arguments of the process. -/
def main (args : List String) : IO UInt32 := do
  let current := ((toString (← IO.currentDir)).splitOn "/").filter (· ≠ "")
  let (before, outcome) ←
    Typegen.Main.settle current args (Typegen.Main.argumentLocations current args)
  Typegen.Main.carryOut before outcome.tree
  IO.print outcome.standardOutput
  IO.eprint outcome.standardError
  if let some f := outcome.failure? then
    IO.eprintln f.message
  return outcome.exitCode.toUInt32
