import Mathlib.Logic.Function.Iterate
import Typegen.Proofs.Cycles
import Typegen.Proofs.Resolved

/-!
# References between definitions

`Schema.Refers` says that a definition mentions another one somewhere in its body.  A schema's graph
has these references as its edges, so what is known of cycles of graphs holds of definitions: a
definition is recursive when references lead from it back to it, and two definitions are in a cycle
when references lead from each to the other.
-/

namespace Typegen.Schema

open Relation (TransGen)

/-- A reference to a definition occurs in the body of another. -/
def Refers (s : Schema) (a b : String) : Prop :=
  ∃ body, s.definition? a = some body ∧ ∃ info, Node.ref info b ∈ body.preorder

theorem mem_targets {body : Node} {t : String} :
    t ∈ targets body ↔ ∃ info, Node.ref info t ∈ body.preorder := by
  rw [targets, List.mem_eraseDups, visit_eq_flatMap, List.flatMap_singleton, List.mem_filterMap]
  constructor
  · rintro ⟨n, hn, htarget⟩
    cases n with
    | ref info t' =>
      cases htarget
      exact ⟨info, hn⟩
    | _ => cases htarget
  · rintro ⟨info, hn⟩
    exact ⟨_, hn, rfl⟩

theorem lookup_map_snd {α β : Type} (f : α → β) (es : List (String × α)) (k : String) :
    (es.map fun e => (e.1, f e.2)).lookup k = (es.lookup k).map f := by
  induction es with
  | nil => rfl
  | cons e es ih =>
    rw [List.map_cons, lookup_cons_eq, lookup_cons_eq, ih]
    split <;> rfl

variable {s : Schema} {a b : String}

theorem edge_iff_refers : Edge s.edges a b ↔ s.Refers a b := by
  rw [Edge, successors, edges, lookup_map_snd, ← definition?, Refers]
  cases s.definition? a with
  | none => simp
  | some body => simp [mem_targets]

theorem transGen_edge_iff : TransGen (Edge s.edges) a b ↔ TransGen s.Refers a b := by
  rw [show Edge s.edges = s.Refers from funext₂ fun _ _ => propext edge_iff_refers]

theorem isRecursive_iff :
    (ReferenceGraph.ofSchema s).isRecursive a = true ↔ TransGen s.Refers a a := by
  rw [← transGen_edge_iff, ← isSome_lookup_cycles]
  rfl

theorem inCycle_iff :
    (ReferenceGraph.ofSchema s).inCycle a b = true ↔
      TransGen s.Refers a b ∧ TransGen s.Refers b a := by
  rw [← transGen_edge_iff, ← transGen_edge_iff, ← lookup_cycles_eq_iff, ReferenceGraph.inCycle,
    ReferenceGraph.ofSchema]
  cases (cycles s.edges).lookup a with
  | none => simp
  | some number => simp

theorem CycleSearch.exists_iterate_finish (edges : List (String × List String))
    (search : CycleSearch) :
    ∃ n, finish edges search = (step edges)^[n] search ∧ ((step edges)^[n] search).work = [] := by
  fun_induction finish edges search with
  | case1 search h => exact ⟨0, rfl, h⟩
  | case2 search _ ih =>
    obtain ⟨n, heq, hwork⟩ := ih
    exact ⟨n + 1, heq, hwork⟩

/-- The search for cycles ends from every state, and it finds the definitions that refer back to
themselves and the pairs of definitions that refer to each other. -/
theorem cycles_of_references (s : Schema) :
    (∀ search : CycleSearch, ∃ n,
      search.finish s.edges = (CycleSearch.step s.edges)^[n] search ∧
        ((CycleSearch.step s.edges)^[n] search).work = []) ∧
    (∀ d, (ReferenceGraph.ofSchema s).isRecursive d = true ↔ TransGen s.Refers d d) ∧
    ∀ a b, (ReferenceGraph.ofSchema s).inCycle a b = true ↔
      TransGen s.Refers a b ∧ TransGen s.Refers b a :=
  ⟨CycleSearch.exists_iterate_finish s.edges, fun _ => isRecursive_iff, fun _ _ => inCycle_iff⟩

end Typegen.Schema
