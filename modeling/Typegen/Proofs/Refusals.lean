import Mathlib.Data.List.Pairwise
import Typegen.Proofs.Mapped
import Typegen.Proofs.Scopes

/-!
# What a backend refuses

A backend may lack forms and primitive types.  The nodes of a schema are gone through in order, and
the first one that needs what is missing is refused.  Branches of a union are an exception: they are
declared along with the union, and nobody asks whether the backend has their form.  `Settles` says
that a computation goes through a list of items and stops at the first that is refused; it is put
together from the steps of the mapping, up to `settles_mapSchema` for a whole schema.
-/

namespace Typegen

open Schema (Node)

/-! ## The first refusal -/

section

variable {ι κ α β γ : Type} {R : ι → Prop} {failure : ι → Failure} {xs ys : List ι} {x : ι}

/-- Items are gone through in order.  The outcome is the given value, or the failure of the first
item that is refused. -/
inductive Settles (R : ι → Prop) (failure : ι → Failure) (xs : List ι) (a : α) :
    Except Failure α → Prop
  | accepted (h : ∀ x ∈ xs, ¬R x) : Settles R failure xs a (.ok a)
  | refused {x : ι} (h : IsFirst R xs x) : Settles R failure xs a (.error (failure x))

namespace Settles

variable {a : α} {b : β} {o : Except Failure α} {f : α → Except Failure β}

theorem bind (ho : Settles R failure xs a o) (hf : Settles R failure ys b (f a)) :
    Settles R failure (xs ++ ys) b (o >>= f) := by
  cases ho with
  | accepted hxs =>
    show Settles R failure (xs ++ ys) b (f a)
    generalize f a = o at hf
    cases hf with
    | accepted hys =>
      refine .accepted fun z hz => ?_
      rcases List.mem_append.1 hz with hz | hz
      · exact hxs z hz
      · exact hys z hz
    | refused hy => exact .refused (hy.append_left hxs)
  | refused hx => exact .refused (hx.append_right ys)

/-- What follows can not fail. -/
theorem followed (ho : Settles R failure xs a o) (hf : f a = .ok b) :
    Settles R failure xs b (o >>= f) := by
  have hrest : Settles R failure [] b (f a) := by
    rw [hf]
    exact .accepted (by simp)
  have hbind := ho.bind hrest
  rwa [List.append_nil] at hbind

/-- What comes before has not failed. -/
theorem preceded (hf : Settles R failure xs b (f a)) (ho : o = .ok a) :
    Settles R failure xs b (o >>= f) := by
  rw [ho]
  exact hf

theorem cons (ho : Settles R failure xs a o) (hx : ¬R x) : Settles R failure (x :: xs) a o := by
  cases ho with
  | accepted hxs => exact .accepted (List.forall_mem_cons.2 ⟨hx, hxs⟩)
  | refused hy => exact .refused (hy.append_left (show ∀ w ∈ [x], ¬R w by simpa using hx))

theorem map {S : κ → Prop} {failure' : κ → Failure} (ho : Settles R failure xs a o) (g : ι → κ)
    (hR : ∀ x, S (g x) ↔ R x) (hfailure : ∀ x, failure' (g x) = failure x) :
    Settles S failure' (xs.map g) a o := by
  cases ho with
  | accepted hxs => exact .accepted (by simpa [hR] using hxs)
  | refused hx =>
    rw [← hfailure]
    exact .refused (hx.congr fun y _ => (hR y).symm).map

theorem mapM {places : γ → List ι} {g : γ → Except Failure α} {zs : List γ} {as : List α}
    (h : List.Forall₂ (fun z a => Settles R failure (places z) a (g z)) zs as) :
    Settles R failure (zs.flatMap places) as (zs.mapM g) := by
  induction h with
  | nil => exact .accepted (by simp)
  | cons hz _ ih =>
    rw [List.mapM_cons, List.flatMap_cons]
    exact hz.bind (ih.followed rfl)

end Settles

end

/-! ## Parents -/

namespace Schema

/-- Apart from the nodes to start from, the nodes that are visited are the children of those that
are visited. -/
theorem visit_perm (pending : List Node) :
    (visit pending).Perm (pending ++ (visit pending).flatMap Node.children) := by
  fun_induction visit pending with
  | case1 => exact .nil
  | case2 n rest ih =>
    rw [List.flatMap_cons, List.cons_append]
    refine .cons n (ih.trans ?_)
    rw [← List.append_assoc]
    exact List.perm_append_comm.append_right _

variable {s : Schema}

theorem Sound.nodup_walk (h : s.Sound) : s.walk.Nodup := .of_map Node.path h.nodup_walk_paths

theorem Sound.nodup_parts (h : s.Sound) :
    (s.definitions.map Prod.snd ++ [s.root] ++ s.walk.flatMap Node.children).Nodup :=
  (visit_perm _).nodup_iff.1 h.nodup_walk

variable {n c : Node}

/-- A node has one parent. -/
theorem Sound.parent_unique (h : s.Sound) {m : Node} (hm : m ∈ s.walk) (hn : n ∈ s.walk)
    (hmc : c ∈ m.children) (hnc : c ∈ n.children) : m = n := by
  by_contra hne
  have hdisjoint := (List.nodup_flatMap.1 h.nodup_parts.of_append_right).2
  have hsymm : Std.Symm (Function.onFun List.Disjoint Node.children) :=
    ⟨fun _ _ hd _ hn hm => hd hm hn⟩
  exact hdisjoint.forall hm hn hne hmc hnc

/-- The body of a definition and the root have none. -/
theorem Sound.notMem_children (h : s.Sound) {top : Node}
    (htop : top ∈ s.definitions.map Prod.snd ++ [s.root]) (hn : n ∈ s.walk) :
    top ∉ n.children := fun hc =>
  List.disjoint_of_nodup_append h.nodup_parts htop (List.mem_flatMap.2 ⟨n, hn, hc⟩)

/-- A parent is visited before its children. -/
theorem mem_before_of_child {pending before after : List Node} (hnodup : (visit pending).Nodup)
    (hvisit : visit pending = before ++ c :: after) (hn : n ∈ visit pending) (hc : c ∈ n.children) :
    n ∈ before := by
  fun_induction visit pending generalizing before with
  | case1 => simp at hn
  | case2 m rest ih =>
    rw [List.nodup_cons] at hnodup
    have hlater : c ∈ visit (m.children ++ rest) := by
      rcases List.mem_cons.1 hn with rfl | hn
      · exact mem_visit_of_mem (List.mem_append_left _ hc)
      · exact mem_visit_of_child hn hc
    cases before with
    | nil =>
      obtain ⟨rfl, -⟩ := List.cons.inj hvisit
      exact absurd hlater hnodup.1
    | cons m' before =>
      obtain ⟨rfl, htail⟩ := List.cons.inj hvisit
      rcases List.mem_cons.1 hn with rfl | hn
      · exact List.mem_cons_self
      · exact List.mem_cons_of_mem _ (ih hnodup.2 htail hn)

/-! ## Branches -/

theorem Sound.hasBranch_iff (h : s.Sound) (hn : n ∈ s.walk) (hc : c ∈ n.children) :
    (∃ tag, s.HasBranch tag c) ↔ n.form = .discriminator := by
  constructor
  · rintro ⟨tag, info, mapping, value, hunion, hvalue⟩
    rw [h.parent_unique hn hunion hc (List.mem_map_of_mem (f := Prod.snd) hvalue)]
    rfl
  · intro hform
    cases n with
    | discriminator info tag mapping =>
      obtain ⟨e, he, rfl⟩ := List.mem_map.1 hc
      exact ⟨tag, info, mapping, e.1, hn, he⟩
    | _ => cases hform

theorem Sound.not_hasBranch (h : s.Sound) {top : Node}
    (htop : top ∈ s.definitions.map Prod.snd ++ [s.root]) : ¬∃ tag, s.HasBranch tag top := by
  rintro ⟨tag, info, mapping, value, hunion, hvalue⟩
  exact h.notMem_children htop hunion (List.mem_map_of_mem (f := Prod.snd) hvalue)

theorem Sound.form_of_hasBranch (h : s.Sound) {tag : String} (hn : s.HasBranch tag n) :
    n.form = .properties := by
  obtain ⟨info, mapping, value, hunion, hvalue⟩ := hn
  cases h.of_mem_walk hunion with
  | discriminator _ _ _ hbranches =>
    obtain ⟨info', required, optional, additional, heq, -⟩ := hbranches _ hvalue
    rw [show n = _ from heq]
    rfl

/-! ## Where nodes are -/

/-- All nodes in order, each with the definition it is in; none for those of the root. -/
def owned (s : Schema) : List (Option String × Node) :=
  (s.definitions.flatMap fun e => e.2.preorder.map fun n => (some e.1, n)) ++
    s.root.preorder.map fun n => (none, n)

theorem map_snd_owned (s : Schema) : s.owned.map Prod.snd = s.walk := by
  rw [owned, walk_eq_append, List.map_append, List.map_flatMap, List.flatMap_map]
  simp only [List.map_map, Function.comp_def, List.map_id']

theorem Sound.owner_unique (h : s.Sound) {owner owner' : Option String} (hn : (owner, n) ∈ s.owned)
    (hn' : (owner', n) ∈ s.owned) : owner = owner' := by
  have hnodup : (s.owned.map Prod.snd).Nodup := s.map_snd_owned ▸ h.nodup_walk
  exact congrArg Prod.fst (List.inj_on_of_nodup_map hnodup hn hn' rfl)

end Schema

/-! ## Missing forms and types -/

namespace Backend

/-- The form of a node is missing, or its primitive type. -/
inductive Lacks (b : Backend) (n : Node) : Prop
  | form (h : n.form ∉ b.forms)
  | primitive {info : Schema.Info} {p : Schema.Primitive} (hn : n = .type info p)
      (h : p ∉ b.primitives)

/-- Why a node is refused: its form is missing, or else its primitive type. -/
def cause (b : Backend) : Node → Cause
  | .type _ p =>
    if .type ∈ b.forms then .unsupportedType p b.name else .unsupportedForm .type b.name
  | n => .unsupportedForm n.form b.name

/-- The failure of a node that is refused, by the definition it is in. -/
def refused (b : Backend) (owner : Option String) (n : Node) : Failure :=
  .report ⟨b.cause n,
    { path := some n.path.text, definition := owner, form := some n.form.label,
      target := some b.name }⟩

/-- The failure is that of the first node with a property. -/
def RefusesFirst (b : Backend) (s : Schema) (R : Node → Prop) (f : Failure) : Prop :=
  ∃ owner n, IsFirst R s.walk n ∧ (owner, n) ∈ s.owned ∧ f = b.refused owner n

/-- The backend with nothing missing. -/
def completed (b : Backend) : Backend :=
  { b with forms := Schema.Form.all, primitives := Schema.Primitive.all }

theorem complete_completed (b : Backend) : b.completed.Complete :=
  ⟨Schema.Form.mem_all, Schema.Primitive.mem_all⟩

theorem cause_of_form {b : Backend} {n : Node} (h : n.form ∉ b.forms) :
    b.cause n = .unsupportedForm n.form b.name := by
  cases n with
  | type info p => exact if_neg h
  | _ => rfl

theorem lacks_iff {b : Backend} {n : Node} (hn : n.form ≠ .type) :
    b.Lacks n ↔ n.form ∉ b.forms := by
  constructor
  · rintro (h | ⟨rfl, -⟩)
    · exact h
    · exact absurd rfl hn
  · exact .form

end Backend

namespace Mapping

variable {s : Scope} {R : Node → Prop}

/-- The scope with nothing missing in its backend. -/
def Scope.completed (s : Scope) : Scope := { s with backend := s.backend.completed }

variable {n : Node} {schema : Schema} {info : Schema.Info} {b : Backend} {m : Mapped}

theorem checkForm_of_mem (h : n.form ∈ s.backend.forms) : s.checkForm n = .ok () := by
  rw [Scope.checkForm, if_pos (List.contains_iff_mem.2 h)]

theorem checkForm_of_notMem (h : n.form ∉ s.backend.forms) :
    s.checkForm n = .error (s.backend.refused s.owner n) := by
  rw [Scope.checkForm, if_neg (mt List.contains_iff_mem.1 h), Scope.unsupported, Backend.refused,
    Backend.cause_of_form h]

theorem settles_checkForm (hR : R n ↔ s.backend.Lacks n) (hn : n.form ≠ .type) :
    Settles R (s.backend.refused s.owner) [n] () (s.checkForm n) := by
  rw [Backend.lacks_iff hn] at hR
  by_cases hform : n.form ∈ s.backend.forms
  · rw [checkForm_of_mem hform]
    exact .accepted (by simpa [hR] using hform)
  · rw [checkForm_of_notMem hform]
    exact .refused ⟨[], [], rfl, hR.2 hform, by simp⟩

theorem settles_mapPrimitive {p : Schema.Primitive}
    (hR : R (.type info p) ↔ s.backend.Lacks (.type info p)) :
    Settles R (s.backend.refused s.owner) [.type info p]
      (.primitive (s.backend.target.spelling p) (s.lossNote info p))
      (s.checkForm (.type info p) >>= fun _ => s.mapPrimitive info p) := by
  by_cases hform : .type ∈ s.backend.forms
  · refine Settles.preceded ?_ (checkForm_of_mem hform)
    rw [Scope.mapPrimitive]
    by_cases hp : p ∈ s.backend.primitives
    · rw [if_pos (List.contains_iff_mem.2 hp)]
      refine .accepted fun n hn => ?_
      rw [List.mem_singleton.1 hn, hR]
      rintro (h | ⟨heq, h⟩)
      · exact h hform
      · cases heq
        exact h hp
    · have hcause : s.backend.cause (.type info p) = .unsupportedType p s.backend.name :=
        if_pos hform
      rw [if_neg (mt List.contains_iff_mem.1 hp), Scope.unsupported, ← hcause]
      exact .refused ⟨[], [], rfl, hR.2 (.primitive rfl hp), by simp⟩
  · rw [checkForm_of_notMem hform]
    exact .refused ⟨[], [], rfl, hR.2 (.form hform), by simp⟩

/-! ## Nodes -/

/-- The mapping goes through a node and those below it, and what it gives is what it gives when
nothing is missing.  The same holds of a branch, which is not refused itself. -/
structure Follows (s : Scope) (R : Node → Prop) (n : Node) : Prop where
  node : (R n ↔ s.backend.Lacks n) → ∀ r, mapNode s.completed n = .ok r →
    Settles R (s.backend.refused s.owner) n.preorder r (mapNode s n)
  branch : ¬R n → ∀ union ds, mapBranch s.completed union n = .ok ds →
    Settles R (s.backend.refused s.owner) n.preorder ds (mapBranch s union n)

theorem settles_mapFields {path : Pointer} {isOptional : Bool} {entries : List (String × Node)}
    (hnodes : ∀ e ∈ entries, ∀ r, mapNode s.completed e.2 = .ok r →
      Settles R (s.backend.refused s.owner) e.2.preorder r (mapNode s e.2))
    {r : List Field × List Declaration}
    (hr : mapFields s.completed path isOptional entries = .ok r) :
    Settles R (s.backend.refused s.owner) (Node.preorderEntries entries) r
      (mapFields s path isOptional entries) := by
  induction entries generalizing r with
  | nil =>
    rw [mapFields] at hr ⊢
    cases hr
    exact .accepted (by simp [Node.preorderEntries])
  | cons e rest ih =>
    rw [List.forall_mem_cons] at hnodes
    simp only [mapFields, bind_eq_ok] at hr
    obtain ⟨⟨t, ds⟩, ht, name, hname, ⟨fields, nested⟩, hfields, hr⟩ := hr
    rw [mapFields, Node.preorderEntries]
    refine (hnodes.1 (t, ds) ht).bind ?_
    refine Settles.preceded ?_ hname
    exact (ih hnodes.2 hfields).followed hr

theorem settles_mapBranches {union tag : String} {mapping : List (String × Node)}
    (hbranches : ∀ e ∈ mapping, Follows s R e.2) (hR : ∀ e ∈ mapping, ¬R e.2)
    {ds : List Declaration} (hds : mapBranches s.completed union tag mapping = .ok ds) :
    Settles R (s.backend.refused s.owner) (Node.preorderEntries mapping) ds
      (mapBranches s union tag mapping) := by
  induction mapping generalizing ds with
  | nil =>
    rw [mapBranches] at hds ⊢
    cases hds
    exact .accepted (by simp [Node.preorderEntries])
  | cons e rest ih =>
    rw [List.forall_mem_cons] at hbranches hR
    simp only [mapBranches, bind_eq_ok] at hds
    obtain ⟨first, hfirst, others, hothers, hds⟩ := hds
    rw [mapBranches, Node.preorderEntries]
    exact (hbranches.1.branch hR.1 _ first hfirst).bind
      ((ih hbranches.2 hR.2 hothers).followed hds)

theorem Follows.of_node (hform : n.form ≠ .properties)
    (hnode : (R n ↔ s.backend.Lacks n) → ∀ r, mapNode s.completed n = .ok r →
      Settles R (s.backend.refused s.owner) n.preorder r (mapNode s n)) : Follows s R n := by
  refine ⟨hnode, fun _ union ds hds => ?_⟩
  obtain ⟨_, _, _, _, _, _, _, h, -⟩ := mapBranch_eq_ok.1 hds
  exact absurd h hform

theorem follows_properties {required optional : List (String × Node)} {additional : Bool}
    (hnodes : ∀ e ∈ required ++ optional, ∀ r,
      mapNode { s with inContainer := false }.completed e.2 = .ok r →
      Settles R (s.backend.refused s.owner) e.2.preorder r
        (mapNode { s with inContainer := false } e.2)) :
    Follows s R (.properties info required optional additional) := by
  have hrequired := fun e he => hnodes e (List.mem_append_left _ he)
  have hoptional := fun e he => hnodes e (List.mem_append_right _ he)
  constructor
  · intro hR r hr
    simp only [mapNode, bind_eq_ok] at hr
    obtain ⟨_, -, ⟨first, nested⟩, hfirst, ⟨second, more⟩, hsecond, d, hd, hr⟩ := hr
    rw [mapNode]
    refine (settles_checkForm hR (by simp [Node.form])).bind ?_
    refine (settles_mapFields hrequired hfirst).bind ?_
    exact (settles_mapFields hoptional hsecond).followed (bind_eq_ok.2 ⟨d, hd, hr⟩)
  · intro hR union ds hds
    simp only [mapBranch, bind_eq_ok] at hds
    obtain ⟨tagField, htag, ⟨first, nested⟩, hfirst, ⟨second, more⟩, hsecond, d, hd, hds⟩ := hds
    rw [mapBranch]
    refine Settles.cons (Settles.preceded ?_ htag) hR
    refine (settles_mapFields hrequired hfirst).bind ?_
    exact (settles_mapFields hoptional hsecond).followed (bind_eq_ok.2 ⟨d, hd, hds⟩)

theorem follows_discriminator {tag : String} {mapping : List (String × Node)}
    (hbranches : ∀ e ∈ mapping, Follows s R e.2) (hR : ∀ e ∈ mapping, ¬R e.2) :
    Follows s R (.discriminator info tag mapping) := by
  refine .of_node (by simp [Node.form]) fun hunion r hr => ?_
  simp only [mapNode, bind_eq_ok] at hr
  obtain ⟨_, -, union, hdeclared, ds, hds, hr⟩ := hr
  rw [mapNode]
  refine (settles_checkForm hunion (by simp [Node.form])).bind ?_
  refine Settles.preceded ?_ hdeclared
  exact (settles_mapBranches hbranches hR hds).followed hr

/-- If below a node the children are refused that lack something, save those of a union, then the
mapping goes through the node and those below it. -/
theorem follows_of_sound {names : List String} {p : Pointer} (h : n.Sound names p)
    (hbelow : ∀ m ∈ n.preorder, ∀ c ∈ m.children,
      R c ↔ m.form ≠ .discriminator ∧ s.backend.Lacks c) : Follows s R n := by
  induction h generalizing s with
  | empty =>
    refine .of_node (by simp [Node.form]) fun hR r hr => ?_
    simp only [mapNode, bind_eq_ok] at hr
    obtain ⟨_, -, hr⟩ := hr
    rw [mapNode]
    exact (settles_checkForm hR (by simp [Node.form])).followed hr
  | ref | enum =>
    refine .of_node (by simp [Node.form]) fun hR r hr => ?_
    simp only [mapNode, bind_eq_ok] at hr
    obtain ⟨_, -, named, hnamed, hr⟩ := hr
    rw [mapNode]
    exact (settles_checkForm hR (by simp [Node.form])).followed (bind_eq_ok.2 ⟨named, hnamed, hr⟩)
  | type =>
    refine .of_node (by simp [Node.form]) fun hR r hr => ?_
    simp only [mapNode, bind_eq_ok,
      mapPrimitive_eq_ok (s := s.completed) s.backend.complete_completed] at hr
    obtain ⟨_, -, t, ht, hr⟩ := hr
    cases ht
    rw [mapNode, ← bind_assoc]
    exact (settles_mapPrimitive hR).followed hr
  | @elements p info item hpath hitem ih | @values p info item hpath hitem ih =>
    refine .of_node (by simp [Node.form]) fun hR r hr => ?_
    have hfollows : Follows { s with inContainer := true } R item :=
      ih fun m hm => hbelow m (List.mem_cons_of_mem _ hm)
    have hchild : R item ↔ s.backend.Lacks item := by
      simpa [Node.form] using hbelow _ (Node.mem_preorder_self _) item (by simp [Node.children])
    simp only [mapNode, bind_eq_ok] at hr
    obtain ⟨_, -, ⟨t, ds⟩, ht, hr⟩ := hr
    rw [mapNode]
    exact (settles_checkForm hR (by simp [Node.form])).bind
      ((hfollows.node hchild (t, ds) ht).followed hr)
  | @properties p info required optional additional hpath hkeys hrequired hoptional ihReq ihOpt =>
    have hfollows : ∀ e ∈ required ++ optional, Follows { s with inContainer := false } R e.2 := by
      intro e he
      rcases List.mem_append.1 he with he | he
      · exact ihReq e he fun m hm => hbelow m (List.mem_cons_of_mem _
          (List.mem_append_left _ (Node.mem_preorderEntries.2 ⟨e, he, hm⟩)))
      · exact ihOpt e he fun m hm => hbelow m (List.mem_cons_of_mem _
          (List.mem_append_right _ (Node.mem_preorderEntries.2 ⟨e, he, hm⟩)))
    have hchild : ∀ e ∈ required ++ optional, R e.2 ↔ s.backend.Lacks e.2 := by
      intro e he
      have hmem : e.2 ∈ (Node.properties info required optional additional).children := by
        rw [Node.children, ← List.map_append]
        exact List.mem_map_of_mem he
      simpa [Node.form] using hbelow _ (Node.mem_preorder_self _) e.2 hmem
    exact follows_properties fun e he => (hfollows e he).node (hchild e he)
  | @discriminator p info tag mapping hpath hkeys hmapping hbranches ih =>
    apply follows_discriminator
    · intro e he
      exact ih e he fun m hm => hbelow m
        (List.mem_cons_of_mem _ (Node.mem_preorderEntries.2 ⟨e, he, hm⟩))
    · intro e he
      rw [hbelow _ (Node.mem_preorder_self _) e.2 (List.mem_map_of_mem he)]
      simp [Node.form]

/-! ## Schemas -/

theorem settles_mapDefinition {name : String} {body : Node}
    (hbody : Follows { s with owner := some name, inContainer := false } R body)
    (hR : R body ↔ s.backend.Lacks body) {ds : List Declaration}
    (hds : mapDefinition s.completed name body = .ok ds) :
    Settles R (s.backend.refused (some name)) body.preorder ds (mapDefinition s name body) := by
  rw [mapDefinition, bind_eq_ok] at hds
  obtain ⟨⟨t, inner⟩, hnode, hds⟩ := hds
  rw [mapDefinition]
  exact (hbody.node hR (t, inner) hnode).followed hds

theorem settles_mapRoot
    (hroot : Follows { s with owner := none, inContainer := false } R s.schema.root)
    (hR : R s.schema.root ↔ s.backend.Lacks s.schema.root) {r : TypeExpr × List Declaration}
    (hr : mapRoot s.completed = .ok r) :
    Settles R (s.backend.refused none) s.schema.root.preorder r (mapRoot s) := by
  simp only [mapRoot, bind_eq_ok] at hr
  obtain ⟨⟨t, inner⟩, hnode, hr⟩ := hr
  simp only [mapRoot]
  exact (hroot.node hR (t, inner) hnode).followed hr

/-- The mapping of a schema goes through all nodes and stops at the first that lacks something and
is no branch. -/
theorem settles_mapSchema {names : Naming.Table} {graph : ReferenceGraph} (hsound : schema.Sound)
    (hm : mapSchema b.completed names schema graph = .ok m) :
    Settles (fun x => b.Lacks x.2 ∧ ¬∃ tag, schema.HasBranch tag x.2)
      (fun x => b.refused x.1 x.2) schema.owned m (mapSchema b names schema graph) := by
  have hfollows : ∀ (owner : Option String) (p : Pointer) (top : Node),
      top.Sound schema.names p → (∀ n ∈ top.preorder, n ∈ schema.walk) →
      Follows { backend := b, names, schema, graph, owner }
        (fun n => b.Lacks n ∧ ¬∃ tag, schema.HasBranch tag n) top := by
    intro owner p top htop hwalk
    refine follows_of_sound htop fun n hn c hc => ?_
    rw [hsound.hasBranch_iff (hwalk n hn) hc, and_comm]
  have htop : ∀ top ∈ schema.definitions.map Prod.snd ++ [schema.root],
      (b.Lacks top ∧ ¬∃ tag, schema.HasBranch tag top) ↔ b.Lacks top := by
    intro top htop
    rw [and_iff_left (hsound.not_hasBranch htop)]
  obtain ⟨bodies, t, rest, hbodies, hroot, rfl⟩ := mapSchema_eq_ok.1 hm
  rw [mapSchema, Schema.owned]
  refine Settles.bind (Settles.mapM (forall₂_imp_mem hbodies fun e he ds _ hds => ?_)) ?_
  · have hbody := hfollows (some e.1) _ e.2 (hsound.definitions e he) fun n hn => by
      rw [Schema.walk_eq_append]
      exact List.mem_append_left _ (List.mem_flatMap.2 ⟨e.2, List.mem_map_of_mem he, hn⟩)
    have hR := htop e.2 (List.mem_append_left _ (List.mem_map_of_mem he))
    exact (settles_mapDefinition (s := { backend := b, names, schema, graph }) hbody hR hds).map _
      (fun _ => Iff.rfl) fun _ => rfl
  · have htree := hfollows none _ schema.root hsound.root fun n hn => by
      rw [Schema.walk_eq_append]
      exact List.mem_append_right _ hn
    have hR := htop schema.root (List.mem_append_right _ (List.mem_singleton_self _))
    have hsettles :=
      settles_mapRoot (s := { backend := b, names, schema, graph }) htree hR hroot
    refine Settles.followed (a := (t, rest)) ?_ rfl
    exact hsettles.map _ (fun _ => Iff.rfl) fun _ => rfl

theorem error_iff_of_settles {o : Except Failure Mapped} (hsound : schema.Sound)
    (h : Settles (fun x => R x.2) (fun x => b.refused x.1 x.2) schema.owned m o) (f : Failure) :
    o = .error f ↔ b.RefusesFirst schema R f := by
  constructor
  · rintro rfl
    cases h with
    | @refused x hx =>
      have hfirst := hx.map
      rw [Schema.map_snd_owned] at hfirst
      exact ⟨x.1, x.2, hfirst, hx.mem, rfl⟩
  · rintro ⟨owner, n, hfirst, hn, rfl⟩
    cases h with
    | accepted hnone => exact absurd hfirst.holds (hnone (owner, n) hn)
    | @refused x hx =>
      have hfirst' := hx.map
      rw [Schema.map_snd_owned] at hfirst'
      obtain ⟨owner', n'⟩ := x
      obtain rfl := hfirst.unique hfirst'
      rw [hsound.owner_unique hn hx.mem]

theorem ok_iff_of_settles {failure : Option String × Node → Failure} {o : Except Failure Mapped}
    (h : Settles (fun x => R x.2) failure schema.owned m o) :
    (∃ m, o = .ok m) ↔ ∀ n ∈ schema.walk, ¬R n := by
  rw [← Schema.map_snd_owned, List.forall_mem_map]
  cases h with
  | accepted hnone => exact ⟨fun _ => hnone, fun _ => ⟨m, rfl⟩⟩
  | refused hx => exact ⟨by simp, fun hnone => absurd hx.holds (hnone _ hx.mem)⟩

/-- Branches make no difference for backends that have structs, and for those that have no
unions. -/
theorem isFirst_lacks_iff (hsound : schema.Sound)
    (hb : .properties ∈ b.forms ∨ .discriminator ∉ b.forms) :
    IsFirst b.Lacks schema.walk n ↔
      IsFirst (fun n => b.Lacks n ∧ ¬∃ tag, schema.HasBranch tag n) schema.walk n := by
  have hbranch : ∀ n, IsFirst b.Lacks schema.walk n → ¬∃ tag, schema.HasBranch tag n := by
    rintro n hn ⟨tag, htag⟩
    have hform := hsound.form_of_hasBranch htag
    rcases hb with hb | hb
    · have hmissing := (Backend.lacks_iff (by simp [hform])).1 hn.holds
      exact hmissing (hform ▸ hb)
    · -- The union is visited first, and it is missing as well.
      obtain ⟨info, mapping, value, hunion, hvalue⟩ := htag
      obtain ⟨before, after, hwalk, -, hbefore⟩ := hn
      have hmem := Schema.mem_before_of_child hsound.nodup_walk hwalk hunion
        (List.mem_map_of_mem (f := Prod.snd) hvalue)
      exact hbefore _ hmem (.form hb)
  have himp : ∀ n, IsFirst b.Lacks schema.walk n →
      IsFirst (fun n => b.Lacks n ∧ ¬∃ tag, schema.HasBranch tag n) schema.walk n := by
    intro n hn
    have hnot := hbranch n hn
    obtain ⟨before, after, hwalk, hlacks, hbefore⟩ := hn
    exact ⟨before, after, hwalk, ⟨hlacks, hnot⟩, fun m hm h => hbefore m hm h.1⟩
  constructor
  · exact himp n
  · intro hn
    obtain ⟨n', hn'⟩ := exists_isFirst hn.mem hn.holds.1
    rw [hn.unique (himp n' hn')]
    exact hn'

/-- Which schemas a backend refuses.  The failure is always that of the first node, in order, that
lacks something and is not a branch of a union; if there is none, the schema is mapped.  Branches
make no difference for backends that have structs, and for those that have no unions. -/
theorem mapSchema_refuses {document : Json} {schema : Schema} {rules : Naming.Rules}
    {rootName : Json} {names : Naming.Table} (hdistinct : document.Distinct)
    (hresolve : Schema.resolve document = .ok schema)
    (hassign : Naming.assign rules schema rootName = .ok names) (b : Backend)
    (graph : ReferenceGraph) :
    (∀ f, mapSchema b names schema graph = .error f ↔
      b.RefusesFirst schema (fun n => b.Lacks n ∧ ¬∃ tag, schema.HasBranch tag n) f) ∧
    ((∃ m, mapSchema b names schema graph = .ok m) ↔
      ∀ n ∈ schema.walk, b.Lacks n → ∃ tag, schema.HasBranch tag n) ∧
    (.properties ∈ b.forms ∨ .discriminator ∉ b.forms →
      ∀ f, mapSchema b names schema graph = .error f ↔ b.RefusesFirst schema b.Lacks f) := by
  have hsound := Schema.sound_of_resolve hdistinct hresolve
  obtain ⟨m, hm⟩ := exists_mapSchema b.complete_completed hsound
    (Naming.Table.suits_of_assign hassign) graph
  have hsettles := settles_mapSchema hsound hm
  have herror := error_iff_of_settles
    (R := fun n => b.Lacks n ∧ ¬∃ tag, schema.HasBranch tag n) hsound hsettles
  refine ⟨herror, ?_, fun hb f => ?_⟩
  · rw [ok_iff_of_settles (R := fun n => b.Lacks n ∧ ¬∃ tag, schema.HasBranch tag n) hsettles]
    simp only [not_and, not_not]
  · rw [herror, Backend.RefusesFirst, Backend.RefusesFirst]
    simp only [isFirst_lacks_iff hsound hb]

open Naming (sketchSchema sketchNames)

/-- A backend without structs and without one primitive type. -/
def meagre : Backend :=
  { Target.typescript.backend with
    name := "meagre"
    forms := Schema.Form.all.filter (· ≠ .properties)
    primitives := Schema.Primitive.all.filter (· ≠ .int32) }

theorem refuses_sketch : ¬(.properties ∈ meagre.forms ∨ .discriminator ∉ meagre.forms) ∧
    mapSchema meagre sketchNames sketchSchema (.ofSchema sketchSchema) =
      .error (.report ⟨.unsupportedType .int32 "meagre",
        { path := some "#/mapping/dash/optionalProperties/ends/elements", definition := none,
          form := some "type", target := some "meagre" }⟩) := by
  refine ⟨by decide, ?_⟩
  have hiff := (mapSchema_refuses Naming.distinct_sketch Naming.resolve_sketch
    Naming.assign_sketch meagre (.ofSchema sketchSchema)).1
  have hsound := Schema.sound_of_resolve Naming.distinct_sketch Naming.resolve_sketch
  have hwalk : sketchSchema.walk = [_, _, _, _, _, _, _, _] := Schema.walk_eq_append sketchSchema
  have hhas : ∀ n : Node, n.form ≠ .type → n.form ∈ meagre.forms →
      ¬(meagre.Lacks n ∧ ¬∃ tag, sketchSchema.HasBranch tag n) :=
    fun n hn hform h => (Backend.lacks_iff hn).1 h.1 hform
  have hbranch : ∀ e ∈ [("dot", _), ("dash", _)],
      ¬(meagre.Lacks e.2 ∧ ¬∃ tag, sketchSchema.HasBranch tag e.2) :=
    fun e he h => h.2 ⟨"kind", _, _, e.1, sketchSchema.root_mem_walk, he⟩
  refine (hiff _).2 ⟨none, _, ⟨[_, _, _, _, _, _, _], [], hwalk, ⟨.primitive rfl (by decide), ?_⟩,
    ?_⟩, ?_, rfl⟩
  · rintro ⟨tag, htag⟩
    cases hsound.form_of_hasBranch htag
  · simp only [List.forall_mem_cons]
    exact ⟨hhas _ (by decide) (by decide), hhas _ (by decide) (by decide),
      hhas _ (by decide) (by decide), hbranch _ (.head _), hhas _ (by decide) (by decide),
      hbranch _ (.tail _ (.head _)), hhas _ (by decide) (by decide), by simp⟩
  · simp [Schema.owned, sketchSchema, Node.preorder, Node.preorderEntries]

/-- A schema can be mapped although the form of one of its nodes is missing. -/
theorem maps_lacking_sketch :
    (∃ n ∈ sketchSchema.walk, { meagre with primitives := Schema.Primitive.all }.Lacks n) ∧
      ∃ m, mapSchema { meagre with primitives := Schema.Primitive.all } sketchNames sketchSchema
        (.ofSchema sketchSchema) = .ok m := by
  have hwalk : sketchSchema.walk = [_, _, _, _, _, _, _, _] := Schema.walk_eq_append sketchSchema
  constructor
  · rw [hwalk]
    exact ⟨_, .tail _ (.tail _ (.tail _ (.head _))), .form (by decide)⟩
  · exact ⟨_, by with_unfolding_all rfl⟩

end Mapping

end Typegen
