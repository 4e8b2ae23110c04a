import Typegen.Failure
import Typegen.Schema.Cycles
import Typegen.Schema.Walk

/-!
# References between definitions

The definitions of a schema form a graph: there is an edge to every definition that is referred to
somewhere in a body.  `ReferenceGraph` knows which definitions lie on cycles, and which of them on a
common one.  A definition whose body is a bare reference is an alias, and a chain of aliases is
followed until it ends or loops.
-/

namespace Typegen

namespace Schema

/-- The body of a definition that has to exist. -/
def definition (s : Schema) (name : String) : Except Failure Node :=
  match s.definition? name with
  | some n => .ok n
  | none => .error (.missingKey name)

/-- The definitions that a body refers to, in the order in which they are first met. -/
def targets (body : Node) : List String := ((visit [body]).filterMap Node.target?).eraseDups

/-- The edges that leave a definition. -/
def edges (s : Schema) : List (String × List String) :=
  s.definitions.map fun (name, body) => (name, targets body)

end Schema

/-- The references between the definitions of a schema. -/
structure ReferenceGraph where
  /-- The definitions that each definition refers to. -/
  edges : List (String × List String)
  /-- The number of the component of every definition that lies on a cycle. -/
  components : List (String × Nat)

namespace ReferenceGraph

/-- The graph of a schema. -/
def ofSchema (s : Schema) : ReferenceGraph := ⟨s.edges, Schema.cycles s.edges⟩

/-- The definitions that a definition refers to. -/
def targets (g : ReferenceGraph) (name : String) : Except Failure (List String) :=
  match g.edges.lookup name with
  | some ts => .ok ts
  | none => .error (.missingKey name)

/-- Whether a definition can reach itself. -/
def isRecursive (g : ReferenceGraph) (name : String) : Bool := (g.components.lookup name).isSome

/-- Whether two definitions lie on a common cycle. -/
def inCycle (g : ReferenceGraph) (a b : String) : Bool :=
  match g.components.lookup a with
  | some number => g.components.lookup b = some number
  | none => false

end ReferenceGraph

namespace Schema

/-! ## Alias chains -/

/-- The first node of an alias chain that is no reference; none when the chain comes back to a
definition that is no longer unseen. -/
def followAlias (s : Schema) (unseen : List String) (node : Node) : Except Failure (Option Node) :=
  match node with
  | .ref _ t =>
    if t ∈ unseen then
      match s.definition? t with
      | some next => followAlias s (unseen.erase t) next
      | none => .error (.missingKey t)
    else .ok none
  | n => .ok (some n)
termination_by unseen.length
decreasing_by
  rename_i h
  have := List.length_erase_of_mem h
  have := List.length_pos_of_mem h
  omega

/-- Whether a node of an alias chain is nullable. -/
def chainNullable (s : Schema) (unseen : List String) (node : Node) : Bool :=
  node.nullable ||
    match node with
    | .ref _ t =>
      if t ∈ unseen then
        match s.definition? t with
        | some next => chainNullable s (unseen.erase t) next
        | none => false
      else false
    | _ => false
termination_by unseen.length
decreasing_by
  rename_i h
  have := List.length_erase_of_mem h
  have := List.length_pos_of_mem h
  omega

/-- The names of the definitions. -/
def names (s : Schema) : List String := s.definitions.map Prod.fst

/-- The body at the end of the alias chain that starts at a definition; none when the chain
loops. -/
def resolveAlias (s : Schema) (name : String) : Except Failure (Option Node) := do
  s.followAlias s.names (← s.definition name)

/-- Whether a definition, or any definition on its alias chain, is nullable. -/
def isNullable (s : Schema) (name : String) : Except Failure Bool := do
  return s.chainNullable s.names (← s.definition name)

end Schema

end Typegen
