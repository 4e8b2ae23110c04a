import Typegen.Schema.Node

/-!
# Visiting all nodes

`Node.preorder` lists a node and all nodes below it, each before those below it and from left to
right.  `visit` lists the same nodes with a list of pending nodes instead of nested recursion, so
that the depth of a document does not matter.  `Schema.walk` visits a whole document.
-/

namespace Typegen.Schema

namespace Node

mutual

/-- A node and all nodes below it, each before those below it and from left to right. -/
def preorder : Node → List Node
  | empty i => [empty i]
  | ref i t => [ref i t]
  | type i p => [type i p]
  | enum i vs => [enum i vs]
  | elements i item => elements i item :: preorder item
  | properties i required optional a =>
    properties i required optional a :: (preorderEntries required ++ preorderEntries optional)
  | values i item => values i item :: preorder item
  | discriminator i tag mapping => discriminator i tag mapping :: preorderEntries mapping

/-- The nodes of a list of entries. -/
def preorderEntries : List (String × Node) → List Node
  | [] => []
  | (_, n) :: rest => preorder n ++ preorderEntries rest

end

theorem preorderEntries_eq (entries : List (String × Node)) :
    preorderEntries entries = (entries.map Prod.snd).flatMap preorder := by
  induction entries with
  | nil => rfl
  | cons e rest ih => obtain ⟨k, n⟩ := e; simp [preorderEntries, ih]

theorem preorder_eq (n : Node) : n.preorder = n :: n.children.flatMap preorder := by
  cases n <;> simp [preorder, children, preorderEntries_eq]

end Node

/-- The pending nodes and all nodes below them: the first pending node comes first, and its children
are visited before the other pending nodes. -/
def visit (pending : List Node) : List Node :=
  match pending with
  | [] => []
  | n :: rest => n :: visit (n.children ++ rest)
termination_by (pending.flatMap Node.preorder).length
decreasing_by
  simp only [List.flatMap_append, List.flatMap_cons, List.length_append]
  rw [Node.preorder_eq n]
  simp only [List.length_cons]
  omega

/-- All nodes: those of the definitions in order, then those of the root. -/
def walk (s : Schema) : List Node := visit (s.definitions.map Prod.snd ++ [s.root])

/-- The nodes that refer to a definition, with the definition they refer to. -/
def references (s : Schema) : List (Node × String) :=
  s.walk.filterMap fun n => n.target?.map (n, ·)

end Typegen.Schema
