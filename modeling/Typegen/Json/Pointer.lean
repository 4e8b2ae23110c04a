import Typegen.Json.Basic

/-!
# JSON pointers

A place inside a document, as the list of object keys that lead to it from the top.  Written out it
begins with `#`, and inside a key `~` becomes `~0` and `/` becomes `~1`.
-/

namespace Typegen

/-- A place inside a document. -/
structure Pointer where
  /-- The keys from the top of the document down to the place. -/
  segments : List String
  deriving DecidableEq, Repr, Inhabited

namespace Pointer

/-- The whole document. -/
def root : Pointer := ⟨[]⟩

/-- The place reached by further keys. -/
def push (p : Pointer) (keys : List String) : Pointer := ⟨p.segments ++ keys⟩

/-- A key as it is written inside a pointer. -/
def escapeChars : List Char → List Char
  | [] => []
  | '~' :: cs => '~' :: '0' :: escapeChars cs
  | '/' :: cs => '~' :: '1' :: escapeChars cs
  | c :: cs => c :: escapeChars cs

/-- A pointer as characters. -/
def chars (p : Pointer) : List Char :=
  '#' :: p.segments.flatMap fun s => '/' :: escapeChars s.toList

/-- A pointer as text. -/
def text (p : Pointer) : String := String.ofList p.chars

/-- The value at a place of a document. -/
def eval? : List String → Json → Option Json
  | [], v => some v
  | k :: ks, .object members => (Json.get? members k).bind (eval? ks)
  | _ :: _, _ => none

end Pointer

end Typegen
