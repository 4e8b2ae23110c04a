/-!
# Paths

A path as its root and its parts.  Repeated slashes and parts that are a single dot do not matter;
two dots are kept, as they may lead through a link.
-/

namespace Typegen.Files

/-- A path. -/
structure Path where
  /-- Empty for a relative path; one slash, or two when the path begins with exactly two. -/
  root : String
  parts : List String
  deriving DecidableEq, Repr, Inhabited

namespace Path

/-- The directory that relative paths start from. -/
def here : Path := ⟨"", []⟩

/-- The root that a text with so many slashes in front has. -/
def rootFor : Nat → String
  | 0 => ""
  | 2 => "//"
  | _ => "/"

/-- The parts of a text between slashes. -/
def partsOf (cs : List Char) : List String :=
  ((cs.splitOn '/').map String.ofList).filter fun s => s ≠ "" && s ≠ "."

/-- The path that a text spells. -/
def ofText (s : String) : Path :=
  let cs := s.toList
  ⟨rootFor (cs.takeWhile (· = '/')).length, partsOf cs⟩

/-- The text of a path. -/
def text (p : Path) : String :=
  match p.root, p.parts with
  | "", [] => "."
  | root, parts => root ++ "/".intercalate parts

/-- Whether a path starts from the root. -/
def isAbsolute (p : Path) : Bool := p.root ≠ ""

/-- A path continued by another; an absolute one stands for itself. -/
def join (p q : Path) : Path := if q.isAbsolute then q else ⟨p.root, p.parts ++ q.parts⟩

/-- The last part of a path. -/
def name (p : Path) : String := p.parts.getLast?.getD ""

/-- A name up to its last dot, unless the dot comes first or last. -/
def stemChars (cs : List Char) : List Char :=
  let extension := cs.reverse.takeWhile (· ≠ '.')
  let front := cs.length - extension.length - 1
  if extension.length < cs.length && 0 < front && 0 < extension.length then cs.take front else cs

/-- The last part of a path without its extension. -/
def stem (p : Path) : String := String.ofList (stemChars p.name.toList)

/-- The directory that a path lies in. -/
def parent (p : Path) : Path := ⟨p.root, p.parts.dropLast⟩

end Path

end Typegen.Files
