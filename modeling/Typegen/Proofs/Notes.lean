import Mathlib.Data.List.Perm.Basic
import Typegen.Proofs.Declared

/-!
# Remarks on lossy types

A target remarks on every primitive type whose spelling loses something (`Target.remark?`).  A remark
stays with the type expression of its node, which may be wrapped, unwrapped and put into a container
or a field, and is found again by walking the declarations.  So the remarks in the type of a node and
in its declarations are those on the nodes below it, each once (`notes_of_mapNode`).  A remark tells
the place of its node, so remarks on different nodes differ (`path_eq_of_remark?`), and leaving out
repetitions only drops what is found in the type of the root a second time.
-/

namespace Typegen

open Schema (Node Primitive)
open scoped List

/-! ## Remarks on nodes -/

namespace Target

/-- What the remark on a primitive type says behind the place and a colon. -/
def remarkOn (target : Target) (p : Primitive) (reason : String) : String :=
  " " ++ p.label ++ " mapped to " ++ target.spelling p ++ " (" ++ reason ++ ")"

/-- The remark on a node, if it is a primitive type whose spelling loses something. -/
def remark? (target : Target) : Node → Option String
  | .type info p =>
    (target.loss p).map fun reason => info.path.text ++ ":" ++ target.remarkOn p reason
  | _ => none

theorem colon_notMem_spelling : ∀ target ∈ all, ∀ p ∈ Primitive.all,
    ':' ∉ p.label.toList ∧ ':' ∉ (target.spelling p).toList := by
  decide

theorem colon_notMem_loss {target : Target} {p : Primitive} {reason : String}
    (h : target.loss p = some reason) : ':' ∉ reason.toList := by
  cases target with
  | typescript =>
    change TypeScript.loss p = some reason at h
    unfold TypeScript.loss at h
    split at h <;> cases h <;> decide
  | python =>
    change Python.loss p = some reason at h
    unfold Python.loss at h
    split at h <;> cases h
    decide
  | go | java => cases h

theorem mem_all (target : Target) : target ∈ all := by
  cases target <;> decide

theorem colon_notMem_remarkOn {target : Target} {p : Primitive} {reason : String}
    (h : target.loss p = some reason) : ':' ∉ (target.remarkOn p reason).toList := by
  obtain ⟨hlabel, hspelling⟩ := colon_notMem_spelling target target.mem_all p (Primitive.mem_all p)
  simp only [remarkOn, String.toList_append, List.mem_append, not_or]
  refine ⟨⟨⟨⟨⟨⟨?_, hlabel⟩, ?_⟩, hspelling⟩, ?_⟩, colon_notMem_loss h⟩, ?_⟩ <;> decide

end Target

/-- A text is divided at its last colon in one way only. -/
theorem eq_of_append_colon {c : Char} {before after before' after' : List Char} (h : c ∉ after)
    (h' : c ∉ after') (heq : before ++ c :: after = before' ++ c :: after') : before = before' := by
  have hsuffix : c :: after <:+ c :: after' ∨ c :: after' <:+ c :: after :=
    List.suffix_or_suffix_of_suffix (List.suffix_append before _)
      (heq ▸ List.suffix_append before' _)
  have hafter : c :: after = c :: after' := by
    rcases hsuffix with hs | hs
    · rcases List.suffix_cons_iff.1 hs with hs | hs
      · exact hs
      · exact absurd (hs.subset List.mem_cons_self) h'
    · rcases List.suffix_cons_iff.1 hs with hs | hs
      · exact hs.symm
      · exact absurd (hs.subset List.mem_cons_self) h
  rw [hafter] at heq
  exact List.append_cancel_right heq

namespace Target

theorem remark?_eq_some_iff {target : Target} {n : Node} {note : String} :
    target.remark? n = some note ↔ ∃ info p reason, n = .type info p ∧ target.loss p = some reason ∧
      note = info.path.text ++ ":" ++ target.remarkOn p reason := by
  constructor
  · intro h
    cases n with
    | type info p =>
      obtain ⟨reason, hreason, rfl⟩ := Option.map_eq_some_iff.1 h
      exact ⟨info, p, reason, rfl, hreason, rfl⟩
    | _ => cases h
  · rintro ⟨info, p, reason, rfl, hreason, rfl⟩
    rw [remark?, hreason]
    rfl

/-- The same remark is not made on nodes at different places. -/
theorem path_eq_of_remark? {target : Target} {n n' : Node} {note : String}
    (h : target.remark? n = some note) (h' : target.remark? n' = some note) : n.path = n'.path := by
  obtain ⟨info, p, reason, rfl, hreason, rfl⟩ := remark?_eq_some_iff.1 h
  obtain ⟨info', p', reason', rfl, hreason', heq⟩ := remark?_eq_some_iff.1 h'
  have hchars := congrArg String.toList heq
  simp only [String.toList_append, List.append_assoc] at hchars
  have htext := eq_of_append_colon (colon_notMem_remarkOn hreason)
    (colon_notMem_remarkOn hreason') hchars
  exact Pointer.text_injective (String.toList_inj.1 htext)

end Target

theorem Schema.Sound.nodup_remarks {s : Schema} (h : s.Sound) (target : Target) :
    (s.walk.filterMap target.remark?).Nodup := by
  have hpaths := List.pairwise_map.1 h.nodup_walk_paths
  refine hpaths.filterMap _ fun n n' hne note hnote note' hnote' heq => hne ?_
  subst heq
  exact Target.path_eq_of_remark? hnote hnote'

/-! ## Remarks in type expressions and declarations -/

namespace TypeExpr

theorem allNotes_eq (t : TypeExpr) : t.allNotes = t.notes ++ t.args.flatMap allNotes := by
  rw [allNotes, walk_eq, walkAll_eq, List.flatMap_cons, List.flatMap_assoc]
  rfl

theorem allNotes_withOptionality (t : TypeExpr) (absent null : Bool) :
    (t.withOptionality absent null).allNotes = t.allNotes := by
  rw [withOptionality]
  split
  · rw [allNotes_eq, allNotes_eq]
  · rw [allNotes_eq]
    simp

theorem allNotes_nullIf (null : Bool) (t : TypeExpr) : (t.nullIf null).allNotes = t.allNotes := by
  cases null
  · rfl
  · exact t.allNotes_withOptionality false true

end TypeExpr

/-- All remarks in the types of a declaration. -/
def Declaration.allNotes (d : Declaration) : List String := d.types.flatMap TypeExpr.allNotes

theorem Declaration.flatMap_walkTypes (ds : List Declaration) :
    (walkTypes ds).flatMap (·.notes) = ds.flatMap allNotes := by
  rw [walkTypes, List.flatMap_assoc]
  refine List.flatMap_congr fun d _ => ?_
  rw [List.flatMap_assoc]
  rfl

theorem eraseDups_of_nodup {xs : List String} (h : xs.Nodup) : xs.eraseDups = xs := by
  induction xs with
  | nil => rfl
  | cons x xs ih =>
    obtain ⟨hx, hxs⟩ := List.nodup_cons.1 h
    have hfilter : xs.filter (fun y => !y == x) = xs := by
      rw [List.filter_eq_self]
      rintro y hy
      simpa using ne_of_mem_of_not_mem hy hx
    rw [List.eraseDups_cons, hfilter, ih hxs]

/-- What is found in further expressions a second time is left out. -/
theorem Declaration.collectNotes_eq {ds : List Declaration} {more : List TypeExpr}
    (hnodup : (ds.flatMap allNotes).Nodup)
    (hmore : more.flatMap TypeExpr.allNotes ⊆ ds.flatMap allNotes) :
    collectNotes ds more = ds.flatMap allNotes := by
  have htwice : (more.flatMap TypeExpr.allNotes).removeAll (ds.flatMap allNotes) = [] := by
    rw [List.removeAll, List.filter_eq_nil_iff]
    intro note hnote
    simpa using hmore hnote
  rw [collectNotes, List.flatMap_append, flatMap_walkTypes, List.flatMap_assoc]
  change (ds.flatMap allNotes ++ more.flatMap TypeExpr.allNotes).eraseDups = _
  rw [List.eraseDups_append, htwice, eraseDups_of_nodup hnodup]
  simp

theorem perm_flatMap_of_forall₂ {α β γ : Type} {R : α → β → Prop} {f : α → List γ}
    {g : β → List γ} {xs : List α} {ys : List β} (h : List.Forall₂ R xs ys)
    (hR : ∀ x ∈ xs, ∀ y, R x y → g y ~ f x) : ys.flatMap g ~ xs.flatMap f := by
  induction h with
  | nil => exact .refl _
  | cons hxy _ ih =>
    rw [List.forall_mem_cons] at hR
    rw [List.flatMap_cons, List.flatMap_cons]
    exact (hR.1 _ hxy).append (ih hR.2)

namespace Mapping

variable {s : Scope}

/-! ## Remarks found in the mapping of a node -/

theorem filterMap_remark? (info : Schema.Info) (p : Primitive) :
    [Node.type info p].filterMap s.backend.target.remark? = s.lossNote info p := by
  rw [List.filterMap_cons, Target.remark?, Scope.lossNote]
  cases s.backend.target.loss p with
  | none => rfl
  | some reason =>
    have hcolon : (": " : String) = ":" ++ " " := rfl
    simp only [Target.remarkOn, hcolon, String.append_assoc]
    rfl

variable {ds : List Declaration}

theorem MapsNode.allNotes_of_isNamed {n : Node} {null : Bool} {core : TypeExpr}
    (h : MapsNode s n null core ds) (hn : n.isNamed = true) : core.allNotes = [] := by
  cases h with
  | enum | properties | discriminator =>
    rw [TypeExpr.allNotes_eq]
    rfl
  | _ => cases hn

theorem notes_of_mapFields {path : Pointer} {isOptional : Bool} {entries : List (String × Node)}
    {fields : List Field} (hmap : mapFields s path isOptional entries = .ok (fields, ds))
    (hentries : ∀ e ∈ entries, ∀ t ds, mapNode s e.2 = .ok (t, ds) →
      t.allNotes ++ ds.flatMap Declaration.allNotes ~
        e.2.preorder.filterMap s.backend.target.remark?) :
    (fields.flatMap fun f => f.type.allNotes) ++ ds.flatMap Declaration.allNotes ~
      (Node.preorderEntries entries).filterMap s.backend.target.remark? := by
  obtain ⟨results, hresults, rfl, rfl⟩ := mapFields_eq_ok.1 hmap
  rw [Node.preorderEntries_eq, List.filterMap_flatMap, List.flatMap_map, List.flatMap_map,
    List.flatMap_assoc]
  refine (List.flatMap_append_perm _ _ _).trans (perm_flatMap_of_forall₂ hresults ?_)
  rintro e he r ⟨t, name, hnode, -, hfield⟩
  have ht : r.1.type.allNotes = t.allNotes := by
    rw [hfield]
    cases isOptional
    · rfl
    · exact t.allNotes_withOptionality true false
  rw [ht]
  exact hentries e he t r.2 hnode

/-- The remarks in the type of a node and in its declarations are those on the node and the nodes
below it. -/
theorem notes_of_mapNode {names : List String} {p : Pointer} {n : Node} (h : n.Sound names p)
    {t : TypeExpr} (hmap : mapNode s n = .ok (t, ds)) (hs : s.backend.Complete) :
    t.allNotes ++ ds.flatMap Declaration.allNotes ~
      n.preorder.filterMap s.backend.target.remark? := by
  induction h generalizing s t ds with
  | empty | ref | enum =>
    obtain ⟨null, core, hmaps, rfl⟩ := exists_mapsNode hmap hs
    cases hmaps
    rw [TypeExpr.allNotes_nullIf, TypeExpr.allNotes_eq]
    exact .refl _
  | @type p info primitive =>
    obtain ⟨null, core, hmaps, rfl⟩ := exists_mapsNode hmap hs
    cases hmaps
    rw [TypeExpr.allNotes_nullIf, TypeExpr.allNotes_eq, Node.preorder, filterMap_remark?]
    simp [TypeExpr.primitive]
  | elements _ _ ih =>
    obtain ⟨null, core, hmaps, rfl⟩ := exists_mapsNode hmap hs
    cases hmaps with
    | elements hitem =>
      rw [TypeExpr.allNotes_nullIf, TypeExpr.allNotes_eq, Node.preorder,
        List.filterMap_cons_none rfl]
      simpa [TypeExpr.array] using ih (s := { s with inContainer := true }) hitem hs
  | values _ _ ih =>
    obtain ⟨null, core, hmaps, rfl⟩ := exists_mapsNode hmap hs
    cases hmaps with
    | values hitem =>
      rw [TypeExpr.allNotes_nullIf, TypeExpr.allNotes_eq, Node.preorder,
        List.filterMap_cons_none rfl]
      simpa [TypeExpr.map] using ih (s := { s with inContainer := true }) hitem hs
  | properties _ _ _ _ ihRequired ihOptional =>
    obtain ⟨null, core, hmaps, rfl⟩ := exists_mapsNode hmap hs
    cases hmaps with
    | @properties _ _ _ _ name first second nested more hfirst hsecond hname =>
      have hrequired := notes_of_mapFields (s := { s with inContainer := false }) hfirst
        fun e he t ds hnode => ihRequired e he hnode hs
      have hoptional := notes_of_mapFields (s := { s with inContainer := false }) hsecond
        fun e he t ds hnode => ihOptional e he hnode hs
      rw [TypeExpr.allNotes_nullIf, TypeExpr.allNotes_eq, Node.preorder,
        List.filterMap_cons_none rfl, List.filterMap_append]
      refine List.Perm.trans ?_ (hrequired.append hoptional)
      simp only [TypeExpr.named, Declaration.allNotes, Declaration.types, List.flatMap_cons,
        List.flatMap_append, List.flatMap_map, List.flatMap_nil, List.nil_append, List.append_assoc]
      exact (List.perm_append_comm_assoc _ _ _).append_left _
  | discriminator _ _ _ _ ih =>
    obtain ⟨null, core, hmaps, rfl⟩ := exists_mapsNode hmap hs
    cases hmaps with
    | discriminator hfield hname hvariants hbranches =>
      obtain ⟨results, hresults, rfl⟩ := mapBranches_eq_ok.1 hbranches
      rw [TypeExpr.allNotes_nullIf, TypeExpr.allNotes_eq, Node.preorder,
        List.filterMap_cons_none rfl, Node.preorderEntries_eq, List.filterMap_flatMap,
        List.flatMap_map, List.flatMap_cons, ← List.flatMap_id, List.flatMap_assoc]
      refine perm_flatMap_of_forall₂ hresults fun e he ds' hbranch => ?_
      obtain ⟨tagName, null', core, header, fields, additional, rest, hform, -, hbody, rfl⟩ :=
        mapBranch_eq_ok.1 hbranch
      refine List.Perm.trans ?_ (ih e he (hbody.mapNode_eq hs) hs)
      rw [TypeExpr.allNotes_nullIf, hbody.allNotes_of_isNamed (by rw [Node.isNamed, hform]; rfl)]
      -- The tag in front of the fields is a literal, which nothing is remarked on.
      rw [id, List.flatMap_cons, List.flatMap_cons, Declaration.allNotes, Declaration.types,
        List.map_cons, List.flatMap_cons, TypeExpr.allNotes_eq (Branch.field _ _).type]
      exact .refl _

/-! ## Remarks on a schema -/

section

variable {backend : Backend} {names : Naming.Table} {schema : Schema} {graph : ReferenceGraph}
  {m : Mapped}

theorem MapsBody.notes {b : Node × String} {ds : List Declaration}
    (h : MapsBody backend names schema b ds) (hbackend : backend.Complete) {p : Pointer}
    (hb : b.1.Sound schema.names p) :
    ds.flatMap Declaration.allNotes ~ b.1.preorder.filterMap backend.target.remark? := by
  obtain ⟨s, null, core, t, inner, rfl, rfl, rfl, hmaps, ht, rfl⟩ := h
  have hnotes := notes_of_mapNode hb (hmaps.mapNode_eq hbackend) hbackend
  rw [TypeExpr.allNotes_nullIf] at hnotes
  have htype : t.allNotes = core.allNotes := by
    rcases ht with rfl | rfl
    · rfl
    · exact TypeExpr.allNotes_nullIf null core
  rw [aliasOf, List.flatMap_append]
  cases hnamed : b.1.isNamed with
  | true =>
    rw [hmaps.allNotes_of_isNamed hnamed] at hnotes
    simpa using hnotes
  | false =>
    have halias : Declaration.allNotes (.synonym ⟨b.2, b.1.path.text, b.1.description⟩ t) =
        core.allNotes := by
      rw [← htype]
      exact List.flatMap_singleton ..
    rw [if_neg Bool.false_ne_true, List.flatMap_singleton, halias]
    exact List.perm_append_comm.trans hnotes

theorem notes_of_mapSchema (hbackend : backend.Complete) (hsound : schema.Sound)
    (hsuits : names.Suits schema) (h : mapSchema backend names schema graph = .ok m) :
    m.declarations.flatMap Declaration.allNotes ~ schema.walk.filterMap backend.target.remark? := by
  obtain ⟨dss, hdss, heq⟩ := mapsBody_of_mapSchema hbackend hsound hsuits h
  rw [heq, Schema.walk, Schema.visit_eq_flatMap, ← map_fst_bodies hsuits, List.filterMap_flatMap,
    List.flatMap_map, ← List.flatMap_id, List.flatMap_assoc]
  refine perm_flatMap_of_forall₂ hdss fun b hb ds hds => ?_
  obtain ⟨p, hp⟩ := sound_of_mem_bodies hsound hsuits hb
  exact hds.notes hbackend hp

theorem notes_of_rootType (hbackend : backend.Complete) (hsound : schema.Sound)
    (h : mapSchema backend names schema graph = .ok m) :
    m.rootType.allNotes ⊆ schema.walk.filterMap backend.target.remark? := by
  obtain ⟨dss, t, rest, -, hroot, rfl⟩ := mapSchema_eq_ok.1 h
  obtain ⟨inner, hnode, -⟩ := mapRoot_eq_ok.1 hroot
  have hnotes := notes_of_mapNode hsound.root hnode hbackend
  rw [Schema.walk_eq_append, List.filterMap_append]
  intro note hnote
  exact List.mem_append_right _ (hnotes.subset (List.mem_append_left _ hnote))

end

/-- The remarks on a run are those on the nodes whose spelling loses something: one on each of them,
wherever it is, none twice, and no others. -/
theorem notes_of_run {document : Json} {schema : Schema} {rules : Naming.Rules} {rootName : Json}
    {names : Naming.Table} (hdistinct : document.Distinct)
    (hresolve : Schema.resolve document = .ok schema)
    (hassign : Naming.assign rules schema rootName = .ok names) (target : Target)
    (graph : ReferenceGraph) :
    ∃ m, mapSchema { target.backend with rules := rules } names schema graph = .ok m ∧
      m.notes ~ schema.walk.filterMap target.remark? ∧ m.notes.Nodup := by
  have hsound := Schema.sound_of_resolve hdistinct hresolve
  have hsuits := Naming.Table.suits_of_assign hassign
  have hbackend := target.complete_backend rules
  obtain ⟨m, h⟩ := exists_mapSchema hbackend hsound hsuits graph
  have hperm := notes_of_mapSchema hbackend hsound hsuits h
  have hnodup := hperm.nodup_iff.2 (hsound.nodup_remarks target)
  have hroot : [m.rootType].flatMap TypeExpr.allNotes ⊆
      m.declarations.flatMap Declaration.allNotes := by
    rw [List.flatMap_singleton]
    exact List.Subset.trans (notes_of_rootType hbackend hsound h) hperm.symm.subset
  have hnotes : m.notes = m.declarations.flatMap Declaration.allNotes := by
    rw [← Declaration.collectNotes_eq hnodup hroot]
    obtain ⟨dss, t, rest, -, -, rfl⟩ := mapSchema_eq_ok.1 h
    rfl
  exact ⟨m, h, hnotes ▸ hperm, hnotes ▸ hnodup⟩

/-- A document with short floating point numbers in an alias that may be null, in a branch of a union
and in the containers of the root. -/
def lossyDocument : Json := .object [
  ("definitions", .object [
    ("ratio", .object [("type", .string "float32"), ("nullable", .bool true)]),
    ("mark", .object [("discriminator", .string "kind"), ("mapping", .object [
      ("dot", .object [("optionalProperties", .object [
        ("size", .object [("type", .string "float32")]),
        ("name", .object [("type", .string "string")])])])])])]),
  ("elements", .object [("values", .object [("type", .string "float32")])])]

/-- The nodes of the document. -/
def lossySchema : Schema where
  definitions := [
    ("ratio", .type ⟨⟨["definitions", "ratio"]⟩, true, some "ratio", []⟩ .float32),
    ("mark", .discriminator ⟨⟨["definitions", "mark"]⟩, false, some "mark", []⟩ "kind" [
      ("dot", .properties
        ⟨⟨["definitions", "mark", "mapping", "dot"]⟩, false, none, []⟩ []
        [("size", .type ⟨⟨["definitions", "mark", "mapping", "dot", "optionalProperties", "size"]⟩,
            false, none, []⟩ .float32),
          ("name", .type ⟨⟨["definitions", "mark", "mapping", "dot", "optionalProperties", "name"]⟩,
            false, none, []⟩ .string)] false)])]
  root := .elements ⟨⟨[]⟩, false, none, []⟩ (.values ⟨⟨["elements"]⟩, false, none, []⟩
    (.type ⟨⟨["elements", "values"]⟩, false, none, []⟩ .float32))

/-- The names of the schema. -/
def lossyNames : Naming.Table where
  root := "Row"
  definitions := [("ratio", "Ratio"), ("mark", "Mark")]
  nodes := [
    (⟨["definitions", "mark"]⟩, .union "Mark" ⟨"Kind", "kind"⟩),
    (⟨["definitions", "mark", "mapping", "dot"]⟩,
      .struct "MarkDot" [⟨"Kind", "kind"⟩, ⟨"Size", "size"⟩, ⟨"Name", "name"⟩])]

theorem notes_lossy :
    lossyDocument.Distinct ∧ Schema.resolve lossyDocument = .ok lossySchema ∧
      Naming.assign {} lossySchema (.string "row") = .ok lossyNames ∧
      ∃ m, mapSchema { Target.python.backend with rules := {} } lossyNames lossySchema
          (.ofSchema lossySchema) = .ok m ∧ m.notes.Nodup ∧
        m.notes ~ [
          "#/definitions/ratio: float32 mapped to float (Python float is 64-bit)",
          "#/definitions/mark/mapping/dot/optionalProperties/size: " ++
            "float32 mapped to float (Python float is 64-bit)",
          "#/elements/values: float32 mapped to float (Python float is 64-bit)"] := by
  have hdistinct : lossyDocument.Distinct := by simp [lossyDocument, Json.keys]
  have hresolve : Schema.resolve lossyDocument = .ok lossySchema := by with_unfolding_all rfl
  have hassign : Naming.assign {} lossySchema (.string "row") = .ok lossyNames := by
    with_unfolding_all rfl
  obtain ⟨m, h, hperm, hnodup⟩ :=
    notes_of_run hdistinct hresolve hassign .python (.ofSchema lossySchema)
  refine ⟨hdistinct, hresolve, hassign, m, h, hnodup, hperm.trans (.of_eq ?_)⟩
  decide +kernel

end Mapping

end Typegen
