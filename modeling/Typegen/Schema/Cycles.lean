import Typegen.Json.Basic

/-!
# Cycles of a graph

Which names of a graph lie on cycles, and which of them lie on a common one, by a single depth-first
search.  Names are numbered as they are met.  A name whose edges have not all been followed is kept
among the pending work together with the number of edges that have been, so that the depth of a
graph does not matter.  A name stays on a stack until its component is known, and its low number is
the least number of a name on the stack that it is known to lead back to.  A name that leads back
to no earlier one completes a component: the names above it on the stack, and itself.
-/

namespace Typegen.Schema

/-- The names that edges lead to from a name. -/
def successors (edges : List (String × List String)) (name : String) : List String :=
  (edges.lookup name).getD []

/-- The state of a search for cycles. -/
structure CycleSearch where
  /-- The names to go on with, each with the number of its edges that have been followed. -/
  work : List (String × Nat) := []
  /-- The numbers of the names that have been met, the last one first. -/
  index : List (String × Nat) := []
  /-- The low numbers of the names that have been met. -/
  lowlink : List (String × Nat) := []
  /-- The names whose component is not known, the last one first. -/
  stack : List String := []
  /-- The number of the component of every name that is known to lie on a cycle. -/
  components : List (String × Nat) := []

namespace CycleSearch

/-- Whether a name has been met. -/
def hasMet (s : CycleSearch) (name : String) : Bool := (s.index.lookup name).isSome

/-- The number of a name. -/
def number (s : CycleSearch) (name : String) : Nat := (s.index.lookup name).getD 0

/-- The low number of a name. -/
def low (s : CycleSearch) (name : String) : Nat := (s.lowlink.lookup name).getD 0

/-- Meet a name: it gets the next number and leads back to itself. -/
def enter (s : CycleSearch) (name : String) : CycleSearch :=
  { s with
    index := (name, s.index.length) :: s.index
    lowlink := Json.setMember name s.index.length s.lowlink
    stack := name :: s.stack }

/-- A name leads back to another with the given number. -/
def lower (s : CycleSearch) (name : String) (number : Nat) : CycleSearch :=
  { s with lowlink := Json.setMember name (min (s.low name) number) s.lowlink }

/-- Take the component of a name from the stack.  It is kept unless it is a single name without an
edge to itself. -/
def close (edges : List (String × List String)) (s : CycleSearch) (name : String) : CycleSearch :=
  let component := s.stack.takeWhile (· ≠ name) ++ [name]
  let isCycle := decide (1 < component.length) || (successors edges name).contains name
  { s with
    stack := (s.stack.dropWhile (· ≠ name)).tail
    components :=
      (if isCycle then component.map (·, s.number name) else []) ++ s.components }

/-- Follow the next edge of a name: to a name that has not been met, which is worked on first, or
back to one on the stack. -/
def follow (s : CycleSearch) (name : String) (followed : Nat) (target : String)
    (rest : List (String × Nat)) : CycleSearch :=
  let work := (name, followed + 1) :: rest
  if s.hasMet target then
    if target ∈ s.stack then { s.lower name (s.number target) with work } else { s with work }
  else { s with work := (target, 0) :: work }

/-- Pass what a name leads back to on to the name it was met from. -/
def passOn (s : CycleSearch) (name : String) : List (String × Nat) → CycleSearch
  | (caller, _) :: _ => s.lower caller (s.low name)
  | [] => s

/-- Leave a name all of whose edges have been followed.  Its component is closed if it leads back to
no name before itself. -/
def leave (edges : List (String × List String)) (s : CycleSearch) (name : String)
    (rest : List (String × Nat)) : CycleSearch :=
  let left := { s.passOn name rest with work := rest }
  if left.low name = left.number name then left.close edges name else left

/-- The state in which the name to go on with has been met. -/
def entered (s : CycleSearch) : CycleSearch :=
  match s.work with
  | (name, 0) :: _ => s.enter name
  | _ => s

/-- One step of the search. -/
def step (edges : List (String × List String)) (s : CycleSearch) : CycleSearch :=
  match s.work with
  | [] => s
  | (name, followed) :: rest =>
    match (successors edges name)[followed]? with
    | some target => s.entered.follow name followed target rest
    | none => s.entered.leave edges name rest

/-! ## The search ends -/

/-- The names with an edge to them that have not been met. -/
def unmet (edges : List (String × List String)) (s : CycleSearch) : List String :=
  (edges.flatMap Prod.snd).filter fun t => !s.entered.hasMet t

/-- The number of edges that are still to be followed and of names that are still to be left. -/
def toDo (edges : List (String × List String)) (work : List (String × Nat)) : Nat :=
  work.foldr (fun w n => (successors edges w.1).length - w.2 + 1 + n) 0

theorem mem_flatMap_of_successors {edges : List (String × List String)} {name target : String}
    {i : Nat} (h : (successors edges name)[i]? = some target) :
    target ∈ edges.flatMap Prod.snd := by
  have hmem := List.mem_of_getElem? h
  unfold successors at hmem
  cases hlookup : edges.lookup name with
  | none => simp [hlookup] at hmem
  | some targets =>
    rw [hlookup, Option.getD_some] at hmem
    obtain ⟨before, after, rfl, -⟩ := List.lookup_eq_some_iff.1 hlookup
    simp [hmem]

theorem hasMet_enter (s : CycleSearch) (name t : String) :
    (s.enter name).hasMet t = (t == name || s.hasMet t) := by
  rw [hasMet, enter, List.lookup_cons]
  split
  · next h => simp [h]
  · next h => simp [h, hasMet]

theorem hasMet_entered {s : CycleSearch} {t : String} (h : s.hasMet t = true) :
    s.entered.hasMet t = true := by
  unfold entered
  split
  · rw [hasMet_enter, h, Bool.or_true]
  · exact h

theorem index_passOn (s : CycleSearch) (name : String) (rest : List (String × Nat)) :
    (s.passOn name rest).index = s.index := by
  cases rest <;> rfl

theorem index_step (edges : List (String × List String)) {s : CycleSearch} (h : s.work ≠ []) :
    (s.step edges).index = s.entered.index := by
  unfold step
  split
  · contradiction
  · split
    · unfold follow
      dsimp only
      split
      · split <;> rfl
      · rfl
    · unfold leave
      dsimp only
      split <;> exact index_passOn _ _ _

theorem work_leave (edges : List (String × List String)) (s : CycleSearch) (name : String)
    (rest : List (String × Nat)) : (s.leave edges name rest).work = rest := by
  unfold leave
  dsimp only
  split <;> rfl

theorem hasMet_step (edges : List (String × List String)) {s : CycleSearch} {t : String}
    (h : s.entered.hasMet t = true) : (s.step edges).entered.hasMet t = true := by
  by_cases hwork : s.work = []
  · rw [step, hwork]
    exact h
  · refine hasMet_entered ?_
    rwa [hasMet, index_step edges hwork]

theorem unmet_step (edges : List (String × List String)) (s : CycleSearch) :
    (s.step edges).unmet edges =
      (s.unmet edges).filter fun t => !(s.step edges).entered.hasMet t := by
  rw [unmet, unmet, List.filter_filter]
  refine List.filter_congr fun t _ => ?_
  cases h : s.entered.hasMet t with
  | false => simp
  | true => simp [hasMet_step edges h]

/-- A step meets a name, or leaves less to do. -/
theorem step_lt (edges : List (String × List String)) {s : CycleSearch} (h : s.work ≠ []) :
    ((s.step edges).unmet edges).length < (s.unmet edges).length ∨
      toDo edges (s.step edges).work < toDo edges s.work := by
  cases hwork : s.work with
  | nil => contradiction
  | cons w rest =>
    obtain ⟨name, followed⟩ := w
    cases htarget : (successors edges name)[followed]? with
    | none =>
      right
      simp only [step, hwork, htarget, work_leave, toDo, List.foldr_cons]
      omega
    | some target =>
      have hlt := (List.getElem?_eq_some_iff.1 htarget).1
      cases hmet : s.entered.hasMet target with
      | true =>
        right
        have hnext : (s.step edges).work = (name, followed + 1) :: rest := by
          simp only [step, hwork, htarget, follow, hmet, if_true]
          split <;> rfl
        simp only [hnext, toDo, List.foldr_cons]
        omega
      | false =>
        left
        have hnext : (s.step edges).work = (target, 0) :: (name, followed + 1) :: rest := by
          simp [step, hwork, htarget, follow, hmet]
        rw [unmet_step, List.length_filter_lt_length_iff_exists]
        refine ⟨target, List.mem_filter.2 ⟨mem_flatMap_of_successors htarget, by simp [hmet]⟩, ?_⟩
        simp [entered, hnext, hasMet_enter]

/-- Search until there is nothing to go on with. -/
def finish (edges : List (String × List String)) (s : CycleSearch) : CycleSearch :=
  if s.work = [] then s else finish edges (s.step edges)
termination_by ((s.unmet edges).length, toDo edges s.work)
decreasing_by
  rename_i h
  have hle : ((s.step edges).unmet edges).length ≤ (s.unmet edges).length := by
    rw [unmet_step]
    exact List.length_filter_le _ _
  rcases step_lt edges h with hlt | hlt
  · exact Prod.Lex.left _ _ hlt
  · rcases Nat.lt_or_eq_of_le hle with hlt' | heq
    · exact Prod.Lex.left _ _ hlt'
    · rw [heq]
      exact Prod.Lex.right _ hlt

/-- Search from a name, unless it has been met. -/
def searchFrom (edges : List (String × List String)) (s : CycleSearch) (name : String) :
    CycleSearch :=
  if s.hasMet name then s else finish edges { s with work := [(name, 0)] }

end CycleSearch

/-- The number of the component of every name that lies on a cycle. -/
def cycles (edges : List (String × List String)) : List (String × Nat) :=
  ((edges.map Prod.fst).foldl (CycleSearch.searchFrom edges) {}).components

end Typegen.Schema
