import Mathlib.Data.List.Induction
import Mathlib.Logic.Function.Iterate
import Mathlib.Logic.Relation
import Typegen.Proofs.References
import Typegen.Proofs.Scopes

/-!
# Traversals

Nodes are visited for three purposes: to list them, to name them and to collect what they refer to.
Each time this is a loop over a stack, in which the children of a node are pushed from the last to
the first.  `StackLoop` is such a loop over items of any kind, with any effect of a visit.  Its rounds
keep the order of all items, visited or in store (`total_round`), so the loop goes through the
recursive order of the item it starts from.  The three traversals of a schema are instances.
-/

namespace Typegen

/-! ## Loops over a stack -/

/-- A loop over a stack. -/
structure StackLoop (α σ : Type) where
  /-- The items to visit, the next one last. -/
  stack : List α
  /-- The items that have been visited. -/
  visited : List α
  /-- What has come of the visits. -/
  state : Except Failure σ

namespace StackLoop

variable {α σ : Type}

/-- One round: the last item is taken from the stack and visited, and its children are pushed from
the last to the first.  Nothing happens when the stack is empty or a visit has failed. -/
def round (children : α → List α) (act : σ → α → Except Failure σ) (l : StackLoop α σ) :
    StackLoop α σ :=
  match l.state, l.stack.getLast? with
  | .ok s, some x => ⟨l.stack.dropLast ++ (children x).reverse, l.visited ++ [x], act s x⟩
  | _, _ => l

/-- A loop that starts with a single item comes to an end with the given outcome.  It visits the
given items in order: all of them, or only the first ones when a visit fails. -/
def Follows (children : α → List α) (act : σ → α → Except Failure σ) (top : α) (s : σ)
    (order : List α) (outcome : Except Failure σ) : Prop :=
  ∃ n stack visited, (round children act)^[n] ⟨[top], [], .ok s⟩ = ⟨stack, visited, outcome⟩ ∧
    (stack = [] ∧ visited = order ∨ (∃ f, outcome = .error f) ∧ visited <+: order)

/-- The items that a stack has in store, in the order of their visits, when `below` lists an item and
those below it. -/
def inStore (below : α → List α) (stack : List α) : List α := stack.reverse.flatMap below

/-- All items, visited or in store, and what will have come of the visits. -/
def total (below : α → List α) (act : σ → α → Except Failure σ) (l : StackLoop α σ) :
    List α × Except Failure σ :=
  (l.visited ++ inStore below l.stack, l.state >>= (inStore below l.stack).foldlM act)

section

variable {children below : α → List α} {act : σ → α → Except Failure σ}

theorem round_push (stack visited : List α) (x : α) (s : σ) :
    round children act ⟨stack ++ [x], visited, .ok s⟩ =
      ⟨stack ++ (children x).reverse, visited ++ [x], act s x⟩ := by
  simp [round]

/-- A loop is over when the stack is empty or a visit has failed. -/
def Over (l : StackLoop α σ) : Prop := l.stack = [] ∨ ∃ f, l.state = .error f

theorem over_or_push (l : StackLoop α σ) :
    l.Over ∨ ∃ stack visited x s, l = ⟨stack ++ [x], visited, .ok s⟩ := by
  obtain ⟨stack, visited, state⟩ := l
  cases state with
  | error f => exact .inl (.inr ⟨f, rfl⟩)
  | ok s =>
    rcases stack.eq_nil_or_concat' with rfl | ⟨stack, x, rfl⟩
    · exact .inl (.inl rfl)
    · exact .inr ⟨stack, visited, x, s, rfl⟩

theorem round_of_over {l : StackLoop α σ} (h : l.Over) : l.round children act = l := by
  obtain ⟨stack, visited, state⟩ := l
  rcases h with rfl | ⟨f, rfl⟩
  · cases state <;> rfl
  · rfl

variable (hbelow : ∀ x, below x = x :: (children x).flatMap below)
include hbelow

/-- When an item is taken from the stack, its children stand in store for what is below it. -/
theorem inStore_push (stack : List α) (x : α) :
    inStore below (stack ++ [x]) = x :: inStore below (stack ++ (children x).reverse) := by
  simp only [inStore, List.reverse_append, List.reverse_singleton, List.reverse_reverse,
    List.singleton_append, List.flatMap_cons, List.flatMap_append]
  rw [hbelow x, List.cons_append]

/-- A round changes neither the order of all items nor what comes of them. -/
theorem total_round (l : StackLoop α σ) :
    total below act (l.round children act) = total below act l := by
  rcases l.over_or_push with hover | ⟨stack, visited, x, s, rfl⟩
  · rw [round_of_over hover]
  · rw [round_push]
    simp only [total, inStore_push hbelow, List.foldlM_cons, List.append_assoc,
      List.singleton_append, ok_bind]

theorem total_iterate (n : ℕ) (l : StackLoop α σ) :
    total below act ((round children act)^[n] l) = total below act l := by
  induction n with
  | zero => rfl
  | succ n ih => rw [Function.iterate_succ_apply', total_round hbelow, ih]

/-- Every round takes an item from the store, so the loop comes to an end. -/
theorem exists_over (l : StackLoop α σ) : ∃ n, ((round children act)^[n] l).Over := by
  induction hlength : (inStore below l.stack).length using Nat.strongRecOn generalizing l with
  | ind k ih =>
    rcases l.over_or_push with hover | ⟨stack, visited, x, s, rfl⟩
    · exact ⟨0, hover⟩
    · have hshorter : (inStore below (stack ++ (children x).reverse)).length < k := by
        rw [← hlength, inStore_push hbelow, List.length_cons]
        omega
      obtain ⟨n, hover⟩ := ih _ hshorter ⟨_, visited ++ [x], act s x⟩ rfl
      exact ⟨n + 1, by rwa [Function.iterate_succ_apply, round_push]⟩

/-- A loop over a stack goes through what is below the item it starts from. -/
theorem follows_below (act : σ → α → Except Failure σ) (top : α) (s : σ) :
    Follows children act top s (below top) ((below top).foldlM act s) := by
  obtain ⟨n, hover⟩ : ∃ n, ((round children act)^[n] ⟨[top], [], .ok s⟩).Over :=
    exists_over hbelow _
  have htotal : total below act ((round children act)^[n] ⟨[top], [], .ok s⟩) =
      (below top, (below top).foldlM act s) := by
    rw [total_iterate hbelow, total, inStore, List.reverse_singleton, List.flatMap_singleton,
      ok_bind, List.nil_append]
  cases hend : (round children act)^[n] ⟨[top], [], .ok s⟩ with
  | mk stack visited state =>
    rw [hend] at hover htotal
    obtain ⟨hvisited, houtcome⟩ := Prod.mk.inj htotal
    rcases hover with rfl | ⟨f, rfl⟩
    · -- The store is empty, so all items have been visited.
      refine ⟨n, [], visited, ?_, .inl ⟨rfl, by simpa [inStore] using hvisited⟩⟩
      rw [hend, ← houtcome]
      cases state <;> rfl
    · refine ⟨n, stack, visited, ?_, .inr ⟨⟨f, houtcome.symm⟩, hvisited ▸ List.prefix_append _ _⟩⟩
      rw [hend, ← houtcome]
      rfl

end

end StackLoop

open StackLoop (Follows follows_below)

/-! ## First occurrences -/

/-- The items of a list in the order of their first occurrences, and each of them once. -/
def FirstOccurrences (all firsts : List String) : Prop :=
  (∀ x, x ∈ firsts ↔ x ∈ all) ∧ firsts.Pairwise fun x y => all.idxOf x < all.idxOf y

theorem eraseDups_concat (xs : List String) (x : String) :
    (xs ++ [x]).eraseDups = if x ∈ xs then xs.eraseDups else xs.eraseDups ++ [x] := by
  rw [List.eraseDups_append]
  by_cases h : x ∈ xs <;> simp [List.removeAll, List.eraseDups_cons, h]

theorem firstOccurrences_eraseDups (xs : List String) : FirstOccurrences xs xs.eraseDups := by
  refine ⟨fun x => List.mem_eraseDups, ?_⟩
  induction xs using List.reverseRecOn with
  | nil => exact .nil
  | append_singleton xs x ih =>
    -- An item at the end changes no index of an item before it.
    have hold : xs.eraseDups.Pairwise fun y z => (xs ++ [x]).idxOf y < (xs ++ [x]).idxOf z := by
      refine ih.imp_of_mem fun hy hz hlt => ?_
      rwa [List.idxOf_append_of_mem (List.mem_eraseDups.1 hy),
        List.idxOf_append_of_mem (List.mem_eraseDups.1 hz)]
    rw [eraseDups_concat]
    split
    · exact hold
    · next hx =>
      refine List.pairwise_append.2 ⟨hold, List.pairwise_singleton _ _, fun y hy z hz => ?_⟩
      have hy := List.mem_eraseDups.1 hy
      rw [List.mem_singleton.1 hz, List.idxOf_append_of_mem hy, List.idxOf_append_of_notMem hx]
      have hlt := List.idxOf_lt_length_of_mem hy
      omega

/-! ## Naming -/

namespace Naming

/-- Name a site after others. -/
def nameNext (r : Rules) (named : List (Pointer × Names) × Namespace) (s : Site) :
    Except Failure (List (Pointer × Names) × Namespace) := do
  let (names, types) ← nameSite r named.2 s
  return (named.1 ++ (names.map (s.node.path, ·)).toList, types)

theorem foldlM_nameNext (r : Rules) (ss : List Site) (nodes : List (Pointer × Names))
    (types : Namespace) : ss.foldlM (nameNext r) (nodes, types) =
      nameSites r types ss >>= fun named => pure (nodes ++ named.1, named.2) := by
  induction ss generalizing nodes types with
  | nil => rw [nameSites, ok_bind, List.append_nil, List.foldlM_nil]
  | cons s ss ih =>
    simp only [List.foldlM_cons, nameNext, nameSites, bind_assoc, pure_bind, ih, List.append_assoc]

theorem sites_eq_flatMap (pending : List Site) :
    sites pending = pending.flatMap fun s => sites [s] := by
  induction pending with
  | nil => rw [sites, List.flatMap_nil]
  | cons s pending ih =>
    rw [← List.singleton_append, sites_append, ih, List.flatMap_append, List.flatMap_singleton]

theorem sites_singleton (s : Site) : sites [s] = s :: s.children.flatMap fun c => sites [c] := by
  rw [sites, List.append_nil, sites_eq_flatMap]

theorem follows_sites (r : Rules) (types : Namespace) (top : Site) :
    Follows Site.children (nameNext r) top ([], types) (sites [top])
      (nameSites r types (sites [top])) := by
  have houtcome : (sites [top]).foldlM (nameNext r) ([], types) =
      nameSites r types (sites [top]) := by
    simp [foldlM_nameNext]
  rw [← houtcome]
  exact follows_below sites_singleton (nameNext r) top ([], types)

end Naming

namespace Schema

/-! ## Nodes -/

/-- A node and the nodes below it belong to the node. -/
def Node.Owns (top n : Node) : Prop := Relation.ReflTransGen (fun m c => c ∈ m.children) top n

theorem Node.mem_preorder_iff_owns {top n : Node} : n ∈ top.preorder ↔ top.Owns n := by
  constructor
  · intro h
    induction hlength : top.preorder.length using Nat.strongRecOn generalizing top with
    | ind k ih =>
      rw [preorder_eq, List.mem_cons] at h
      rcases h with rfl | h
      · exact .refl
      · obtain ⟨c, hc, hn⟩ := List.mem_flatMap.1 h
        exact .head hc (ih _ (hlength ▸ length_preorder_lt hc) hn rfl)
  · intro h
    induction h with
    | refl => exact mem_preorder_self top
    | tail _ hc ih => exact mem_preorder_of_child ih hc

/-- A loop whose visits cannot fail visits all nodes. -/
theorem follows_preorder {σ : Type} (act : σ → Node → σ) (body : Node) (s : σ) :
    Follows Node.children (fun s n => .ok (act s n)) body s body.preorder
      (.ok (body.preorder.foldl act s)) := by
  have houtcome : body.preorder.foldlM (fun s n => Except.ok (act s n)) s =
      (.ok (body.preorder.foldl act s) : Except Failure σ) := List.foldlM_pure
  rw [← houtcome]
  exact follows_below Node.preorder_eq _ body s

theorem follows_list (body : Node) : Follows Node.children (fun seen n => .ok (seen ++ [n])) body []
    body.preorder (.ok body.preorder) := by
  have hlist : body.preorder.foldl (fun seen n => seen ++ [n]) [] = body.preorder := by
    simp [List.foldl_append_eq_append, ← List.flatMap_def]
  have hfollows := follows_preorder (fun seen n => seen ++ [n]) body []
  rwa [hlist] at hfollows

/-! ## References -/

/-- Note the definition that a node refers to, unless it has been noted. -/
def noteTarget (noted : List String) (n : Node) : List String :=
  match n.target? with
  | some t => if t ∈ noted then noted else noted ++ [t]
  | none => noted

theorem foldl_noteTarget (ns : List Node) :
    ns.foldl noteTarget [] = (ns.filterMap Node.target?).eraseDups := by
  induction ns using List.reverseRecOn with
  | nil => rfl
  | append_singleton ns n ih =>
    rw [List.foldl_concat, ih, noteTarget, List.filterMap_append]
    cases h : n.target? with
    | none => simp [h]
    | some t => simp [h, eraseDups_concat]

theorem targets_eq {s : Schema} {d : String} {body : Node} (h : s.definition? d = some body) :
    (ReferenceGraph.ofSchema s).targets d =
      .ok (body.preorder.filterMap Node.target?).eraseDups := by
  rw [ReferenceGraph.targets, ReferenceGraph.ofSchema, edges, lookup_map_snd, ← definition?, h,
    Option.map_some, targets, visit_eq_flatMap, List.flatMap_singleton]

/-! ## Schemas -/

open Naming (Rules Namespace assign bodySite nameNext nameSites sites)

/-- The nodes of a resolved document are listed in recursive order, the definitions before the root,
and each node once.  A loop over a stack that starts with the body of a definition or with the root
goes through the part of the list that belongs to it, whether it lists the nodes or names them.  One
that collects references comes out with their first occurrences in that part. -/
theorem traversals_of_resolve {document : Json} {s : Schema} (hdistinct : document.Distinct)
    (hresolve : resolve document = .ok s) :
    s.walk = (s.definitions.map Prod.snd ++ [s.root]).flatMap Node.preorder ∧
    (s.walk.map Node.path).Nodup ∧
    (∀ n, n ∈ s.walk ↔ ∃ body ∈ s.definitions.map Prod.snd ++ [s.root], body.Owns n) ∧
    (∀ body ∈ s.definitions.map Prod.snd ++ [s.root],
      body.preorder <:+: s.walk ∧ (∀ n, n ∈ body.preorder ↔ body.Owns n) ∧
      Follows Node.children (fun seen n => .ok (seen ++ [n])) body [] body.preorder
        (.ok body.preorder) ∧
      ∀ (r : Rules) (types : Namespace) (name id : String),
        (sites [bodySite name id body]).map Naming.Site.node = body.preorder ∧
        Follows Naming.Site.children (nameNext r) (bodySite name id body) ([], types)
          (sites [bodySite name id body]) (nameSites r types (sites [bodySite name id body]))) ∧
    (∀ r rootName t, assign r s rootName = .ok t →
      t.nodes.map Prod.fst = (s.walk.filter Node.isNamed).map Node.path) ∧
    ∀ d body, s.definition? d = some body → ∃ ts, (ReferenceGraph.ofSchema s).targets d = .ok ts ∧
      FirstOccurrences (body.preorder.filterMap Node.target?) ts ∧
      Follows Node.children (fun noted n => .ok (noteTarget noted n)) body [] body.preorder
        (.ok ts) := by
  have hwalk : s.walk = (s.definitions.map Prod.snd ++ [s.root]).flatMap Node.preorder :=
    visit_eq_flatMap _
  refine ⟨hwalk, (sound_of_resolve hdistinct hresolve).nodup_walk_paths, ?_, fun body hbody => ?_,
    fun r rootName t h => (Naming.Table.suits_of_assign h).nodes, fun d body h => ?_⟩
  · simp only [hwalk, List.mem_flatMap, Node.mem_preorder_iff_owns, implies_true]
  · refine ⟨?_, fun n => Node.mem_preorder_iff_owns, follows_list body,
      fun r types name id => ⟨?_, Naming.follows_sites r types _⟩⟩
    · rw [hwalk, List.flatMap_def]
      exact List.infix_of_mem_flatten (List.mem_map_of_mem hbody)
    · rw [Naming.map_node_sites, List.map_singleton, List.flatMap_singleton]
      rfl
  · refine ⟨_, targets_eq h, firstOccurrences_eraseDups _, ?_⟩
    rw [← foldl_noteTarget]
    exact follows_preorder noteTarget body []

/-- A union with a branch that holds pairs.  A pair refers to itself and twice to a leaf. -/
def pairsDocument : Json := .object [
  ("definitions", .object [
    ("pair", .object [
      ("properties", .object [
        ("left", .object [("elements", .object [("ref", .string "leaf")])]),
        ("right", .object [("ref", .string "pair")])]),
      ("optionalProperties", .object [("last", .object [("ref", .string "leaf")])])]),
    ("leaf", .object [("type", .string "string")])]),
  ("discriminator", .string "kind"),
  ("mapping", .object [
    ("many", .object [("properties", .object [
      ("all", .object [("values", .object [("ref", .string "pair")])])])]),
    ("none", .object [("properties", .object [])])])]

/-- The body of the definition of pairs. -/
def pairBody : Node :=
  .properties ⟨⟨["definitions", "pair"]⟩, false, some "pair", []⟩ [
    ("left", .elements ⟨⟨["definitions", "pair", "properties", "left"]⟩, false, none, []⟩
      (.ref ⟨⟨["definitions", "pair", "properties", "left", "elements"]⟩, false, none, []⟩ "leaf")),
    ("right", .ref ⟨⟨["definitions", "pair", "properties", "right"]⟩, false, none, []⟩ "pair")] [
    ("last", .ref ⟨⟨["definitions", "pair", "optionalProperties", "last"]⟩, false, none, []⟩
      "leaf")] false

/-- The schema of the document. -/
def pairsSchema : Schema where
  definitions := [("pair", pairBody),
    ("leaf", .type ⟨⟨["definitions", "leaf"]⟩, false, some "leaf", []⟩ .string)]
  root := .discriminator ⟨⟨[]⟩, false, none, []⟩ "kind" [
    ("many", .properties ⟨⟨["mapping", "many"]⟩, false, none, []⟩ [
      ("all", .values ⟨⟨["mapping", "many", "properties", "all"]⟩, false, none, []⟩
        (.ref ⟨⟨["mapping", "many", "properties", "all", "values"]⟩, false, none, []⟩ "pair"))]
      [] false),
    ("none", .properties ⟨⟨["mapping", "none"]⟩, false, none, []⟩ [] [] false)]

theorem traversals_pairs :
    pairsDocument.Distinct ∧ resolve pairsDocument = .ok pairsSchema ∧
      (pairsSchema.walk.map fun n => n.path.text) =
        ["#/definitions/pair", "#/definitions/pair/properties/left",
          "#/definitions/pair/properties/left/elements", "#/definitions/pair/properties/right",
          "#/definitions/pair/optionalProperties/last", "#/definitions/leaf", "#", "#/mapping/many",
          "#/mapping/many/properties/all", "#/mapping/many/properties/all/values",
          "#/mapping/none"] ∧
      (pairsSchema.walk.map Node.path).Nodup ∧
      (ReferenceGraph.ofSchema pairsSchema).targets "pair" = .ok ["leaf", "pair"] ∧
      FirstOccurrences ["leaf", "pair", "leaf"] ["leaf", "pair"] := by
  have hdistinct : pairsDocument.Distinct := by simp [pairsDocument, Json.keys]
  have hresolve : resolve pairsDocument = .ok pairsSchema := by with_unfolding_all rfl
  have htargets : (ReferenceGraph.ofSchema pairsSchema).targets "pair" = .ok ["leaf", "pair"] := by
    with_unfolding_all rfl
  obtain ⟨-, hnodup, -, -, -, hreferences⟩ := traversals_of_resolve hdistinct hresolve
  obtain ⟨ts, hts, hfirst, -⟩ := hreferences "pair" pairBody rfl
  obtain rfl : _ = ts := Except.ok.inj (htargets.symm.trans hts)
  exact ⟨hdistinct, hresolve, by with_unfolding_all rfl, hnodup, htargets, hfirst⟩

end Schema

end Typegen
