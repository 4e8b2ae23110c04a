import Typegen.Files.Tree
import Typegen.Target.Layout

/-!
# Writing generated files

Files are written one by one, each under a temporary name first.  Unless overwriting is wanted, the
files of a target are all looked up before that, and one that exists stops the writing before it
begins.
-/

namespace Typegen.Files

open Target (RenderedFile)

/-- What writing did: the tree afterwards, the paths written, and the failure that stopped it. -/
structure Written where
  tree : Tree
  paths : List Path
  failure : Option Failure

/-- By how many bytes the temporary name of a file is longer than its own. -/
def temporaryBytes : Nat := 14

/-- The length in bytes of the path under which a file is first written, which starts from the
root. -/
def temporaryPathBytes (t : Tree) (p : Path) : Nat :=
  (locationText (t.normalize p.parent)).utf8ByteSize + 1 + p.name.utf8ByteSize + temporaryBytes

/-- Whether a path ends in the name of a file, not in a step to another directory. -/
def endsInName (p : Path) : Bool := p.name ≠ "" && p.name ≠ ".."

/-- What makes a temporary name different from others: a number with at least eight digits. -/
def temporaryCode (n : Nat) : String := String.ofList ((toString n).toList.leftpad 8 '0')

/-- A name under which a file with the given name is first written. -/
def temporaryName (name : String) (n : Nat) : String :=
  "." ++ name ++ "." ++ temporaryCode n ++ ".tmp"

/-- Where a file is first written: under the first temporary name that is free in its directory. -/
def temporaryLocation? (t : Tree) (dir : Location) (name : String) : Option Location :=
  ((List.range (t.entries.length + 2)).map fun n => dir ++ [temporaryName name n]).find? fun l =>
    (t.get? l).isNone

/-- Move a file from its temporary location to its own path, over a file that may be there. -/
def moveFile (t : Tree) (temporary : Location) (p : Path) : Except Failure Tree :=
  if !endsInName p then .error .unnamed
  else
    match t.locate p with
    | .error o => .error (Tree.failure p o)
    | .ok l =>
      match t.get? l, t.get? temporary with
      | some .directory, _ => .error .isDirectory
      | _, some e => .ok ((t.remove temporary).set l e)
      | _, none => .error .noSuchFile

/-- Write a file by way of a temporary one, which is empty at first.  If it can not be moved to its
own path once it is complete, it is removed again. -/
def writeThrough (t : Tree) (p : Path) (content : String) : Tree × Except Failure Unit :=
  match temporaryLocation? t (t.normalize p.parent) p.name with
  | none => (t, .error (.obstructed p.parent.text))
  | some temporary =>
    let opened := t.set temporary (.file "")
    let filled := opened.set temporary (.file content)
    match moveFile filled temporary p with
    | .ok t => (t, .ok ())
    | .error f => (filled.remove temporary, .error f)

/-- Put a file in a directory that exists. -/
def place (t : Tree) (p : Path) (content : String) : Tree × Except Failure Unit :=
  if !isPassable p.text then (t, .error impassable)
  else if Tree.maxNameBytes < p.name.utf8ByteSize + temporaryBytes then (t, .error .nameTooLong)
  else if Tree.maxPathBytes < temporaryPathBytes t p then (t, .error .nameTooLong)
  else writeThrough t p content

/-- Write a file, making the directories it lies in. -/
def write (t : Tree) (force : Bool) (p : Path) (content : String) : Tree × Except Failure Unit :=
  match t.contains p with
  | .error f => (t, .error f)
  | .ok taken =>
    if taken && !force then (t, .error (.fileExists p.text))
    else if !isPassable p.parent.text then (t, .error impassable)
    else
      match t.makeDirectories p.parent with
      | (t, .error f) => (t, .error f)
      | (t, .ok ()) => place t p content

/-- Write files in order, up to the first failure. -/
def writeEach (t : Tree) (force : Bool) : List (Path × String) → Written
  | [] => ⟨t, [], none⟩
  | (p, content) :: rest =>
    match write t force p content with
    | (t, .error f) => ⟨t, [], some f⟩
    | (t, .ok ()) =>
      let w := writeEach t force rest
      { w with paths := p :: w.paths }

/-- The first of some paths that is taken. -/
def firstOccupied (t : Tree) : List Path → Except Failure (Option Path)
  | [] => .ok none
  | p :: rest => do if ← t.contains p then return some p else firstOccupied t rest

/-- Write the files of a target below its output directory. -/
def writeAll (t : Tree) (force : Bool) (outDir : String) (files : List RenderedFile) : Written :=
  let targets := files.map fun f => ((Path.ofText outDir).join (Path.ofText f.path), f.content)
  match firstOccupied t (if force then [] else targets.map Prod.fst) with
  | .error f => ⟨t, [], some f⟩
  | .ok (some p) => ⟨t, [], some (.fileExists p.text)⟩
  | .ok none => writeEach t force targets

end Typegen.Files
