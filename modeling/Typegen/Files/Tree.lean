import Typegen.Failure
import Typegen.Files.Path

/-!
# File trees

The files and directories that a run can see, as a value.  A location is the list of names that lead
to it from the root.  There are no links, so two dots lead to the directory above.
-/

namespace Typegen.Files

/-- A place in a file tree, by the names that lead to it from the root. -/
abbrev Location := List String

/-- What stands at a location. -/
inductive Entry where
  | file (content : String)
  | directory
  deriving DecidableEq, Repr

/-- The files and directories, and the directory that relative paths start from. -/
structure Tree where
  current : Location
  entries : List (Location × Entry)

/-- Why a path leads nowhere, or a directory cannot be made. -/
inductive Obstacle where
  | missing
  | notDirectory
  | occupied
  | tooLong
  deriving DecidableEq, Repr

/-- A location as a path from the root. -/
def locationText (l : Location) : String := "/" ++ "/".intercalate l

/-- Whether a path can be passed to the system, where a null character ends a text. -/
def isPassable (text : String) : Bool := !text.toList.contains '\x00'

/-- The failure of a path that cannot be passed to the system. -/
def impassable : Failure := .badFileName "embedded null byte"

namespace Tree

/-- What stands at a location.  The current directory and those above it always exist. -/
def get? (t : Tree) (l : Location) : Option Entry :=
  if l.isPrefixOf t.current then some .directory else t.entries.lookup l

/-- Entries with the one at a location replaced, or added at the end. -/
def setEntry (l : Location) (e : Entry) : List (Location × Entry) → List (Location × Entry)
  | [] => [(l, e)]
  | (k, old) :: rest => if k = l then (k, e) :: rest else (k, old) :: setEntry l e rest

/-- The tree with an entry at a location. -/
def set (t : Tree) (l : Location) (e : Entry) : Tree :=
  { t with entries := setEntry l e t.entries }

/-- The tree without the entry at a location. -/
def remove (t : Tree) (l : Location) : Tree :=
  { t with entries := t.entries.filter fun e => e.1 ≠ l }

/-! ## Following paths -/

/-- The greatest length of a name in bytes. -/
def maxNameBytes : Nat := 255

/-- The greatest length of a path in bytes. -/
def maxPathBytes : Nat := 4095

/-- What stands at a location, if its path from the root is short enough to be looked at. -/
def visible? (t : Tree) (l : Location) : Option Entry :=
  if maxPathBytes < (locationText l).utf8ByteSize then none else t.get? l

/-- One step along a path. -/
def step (t : Tree) (l : Location) (part : String) : Except Obstacle Location :=
  match t.get? l with
  | some .directory =>
    if maxNameBytes < part.utf8ByteSize then .error .tooLong
    else .ok (if part = ".." then l.dropLast else l ++ [part])
  | some (.file _) => .error .notDirectory
  | none => .error .missing

/-- The location that a path leads to, where nothing needs to stand. -/
def locate (t : Tree) (p : Path) : Except Obstacle Location :=
  if maxPathBytes < p.text.utf8ByteSize then .error .tooLong
  else p.parts.foldlM t.step (if p.isAbsolute then [] else t.current)

/-- What stands at the end of a path. -/
def find? (t : Tree) (p : Path) : Option Entry :=
  match t.locate p with
  | .ok l => t.get? l
  | .error _ => none

/-- Whether something stands at the end of a path, which the system refuses to tell when a name is
too long.  At a path that cannot be passed to the system nothing stands. -/
def contains (t : Tree) (p : Path) : Except Failure Bool :=
  if !isPassable p.text then .ok false
  else
    match t.locate p with
    | .ok l => .ok (t.get? l).isSome
    | .error .tooLong => .error .nameTooLong
    | .error _ => .ok false

/-- Whether a directory stands at the end of a path. -/
def isDirectory (t : Tree) (p : Path) : Bool := t.find? p == some .directory

/-- The location that a path stands for when two dots take away the name before them, whether that
exists or not. -/
def normalize (t : Tree) (p : Path) : Location :=
  p.parts.foldl (fun l part => if part = ".." then l.dropLast else l ++ [part])
    (if p.isAbsolute then [] else t.current)

/-- What a text stands for as a path.  After a slash at the end only a directory will do.  The text
counts in full length, with all its dots and slashes. -/
def lookUp? (t : Tree) (text : String) : Option Entry :=
  if text = "" || maxPathBytes < text.utf8ByteSize then none
  else
    match t.find? (Path.ofText text) with
    | some (.file c) =>
      let last := ((text.toList.splitOn '/').getLast?).getD []
      if last = [] || last = ['.'] then none else some (.file c)
    | e => e

/-! ## Making directories -/

/-- Make one directory. -/
def makeDirectory (t : Tree) (p : Path) : Except Obstacle Tree := do
  let l ← t.locate p
  match t.get? l with
  | some _ => .error .occupied
  | none =>
    match t.get? l.dropLast with
    | some .directory => return t.set l .directory
    | some (.file _) => .error .notDirectory
    | none => .error .missing

/-- The failure of a path with an obstacle. -/
def failure (p : Path) : Obstacle → Failure
  | .missing => .noSuchFile
  | .notDirectory => .notDirectory
  | .occupied => .obstructed p.text
  | .tooLong => .nameTooLong

/-- Make a directory whose parents exist; one that is there already will do. -/
def ensureDirectory (t : Tree) (p : Path) : Tree × Except Failure Unit :=
  match t.makeDirectory p with
  | .ok t => (t, .ok ())
  | .error o =>
    if o ≠ .missing && t.isDirectory p then (t, .ok ()) else (t, .error (failure p o))

/-- Make a directory and those above it that are missing.  The parts are given in reverse.  What was
made before a failure stays. -/
def ensureParents (t : Tree) (root : String) : List String → Tree × Except Failure Unit
  | [] => t.ensureDirectory ⟨root, []⟩
  | part :: above =>
    let p : Path := ⟨root, (part :: above).reverse⟩
    match t.makeDirectory p with
    | .error .missing =>
      match t.ensureParents root above with
      | (t, .ok ()) => t.ensureDirectory p
      | (t, .error f) => (t, .error f)
    | _ => t.ensureDirectory p

/-- Make a directory and those above it that are missing. -/
def makeDirectories (t : Tree) (p : Path) : Tree × Except Failure Unit :=
  t.ensureParents p.root p.parts.reverse

/-- The entries below the current directory by their paths, in the order of these. -/
def listing (t : Tree) : List (String × Entry) :=
  let below := t.entries.filterMap fun (l, e) =>
    if t.current.isPrefixOf l && t.current.length < l.length then
      some ("/".intercalate (l.drop t.current.length), e)
    else none
  below.mergeSort fun a b => decide (a.1 ≤ b.1)

end Tree

end Typegen.Files
