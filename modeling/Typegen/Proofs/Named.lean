import Mathlib.Data.List.Perm.Basic
import Typegen.Naming.Assign
import Typegen.Proofs.Identifiers
import Typegen.Proofs.Keys
import Typegen.Schema.Reference

/-!
# What is named

A run of the naming of a schema, from the single site to the whole table.  `NamesSite` says what
happens at one site; what is named at several sites, in the body of a definition and in a list of
bodies follows by induction.  In each case the table has an entry for every node that declares a
type, the entry fits its node, and the identifiers come out of the namespace of types by a run of
claims.
-/

namespace Typegen.Naming

open Schema (Node)
open Namespace (Hands)

/-! ## Sites -/

section Sites

theorem sites_append (pending more : List Site) :
    sites (pending ++ more) = sites pending ++ sites more := by
  fun_induction sites pending with
  | case1 => rfl
  | case2 s rest ih => rw [List.cons_append, sites, ← List.append_assoc, ih, List.cons_append]

theorem map_node_sites (pending : List Site) :
    (sites pending).map Site.node = (pending.map Site.node).flatMap Node.preorder := by
  fun_induction sites pending with
  | case1 => rfl
  | case2 s rest ih =>
    rw [List.map_cons, ih, List.map_append, List.flatMap_append, Site.map_node_children,
      List.map_cons, List.flatMap_cons, Node.preorder_eq s.node, List.cons_append]

variable {pending : List Site} {s : Site}

theorem mem_sites_of_mem (h : s ∈ pending) : s ∈ sites pending := by
  obtain ⟨before, after, rfl⟩ := List.append_of_mem h
  rw [sites_append, sites]
  exact List.mem_append_right _ List.mem_cons_self

theorem mem_sites_of_child {c : Site} (h : s ∈ sites pending) (hc : c ∈ s.children) :
    c ∈ sites pending := by
  fun_induction sites pending with
  | case1 => simp at h
  | case2 s' rest ih =>
    refine List.mem_cons_of_mem _ ?_
    rcases List.mem_cons.1 h with rfl | h
    · exact mem_sites_of_mem (List.mem_append_left _ hc)
    · exact ih h

theorem given_of_mem_children {c : Site} (h : c ∈ s.children) : c.given = none := by
  unfold Site.children at h
  split at h
  · rw [List.mem_singleton.1 h]
  · rw [List.mem_singleton.1 h]
  · obtain ⟨e, -, rfl⟩ := List.mem_map.1 h
    rfl
  · obtain ⟨e, -, rfl⟩ := List.mem_map.1 h
    rfl
  · simp at h

/-- Only what is given at the start is given. -/
theorem given_of_mem_sites (hpending : ∀ s ∈ pending, s.given = none) :
    ∀ s ∈ sites pending, s.given = none := by
  fun_induction sites pending with
  | case1 => simp
  | case2 s rest ih =>
    rw [List.forall_mem_cons] at hpending
    refine List.forall_mem_cons.2 ⟨hpending.1, ih fun c hc => ?_⟩
    rcases List.mem_append.1 hc with hc | hc
    · exact given_of_mem_children hc
    · exact hpending.2 c hc

end Sites

/-! ## One site -/

/-- The identifier of a key that is the first to be named among its fields. -/
def Rules.FirstField (r : Rules) (f : FieldName) : Prop :=
  ∃ raw path left, r.fieldIdentifier f.key = .ok raw ∧
    (r.freshNames r.fieldReserved).claim raw path = .ok (f.identifier, left)

theorem Rules.FirstField.unique {r : Rules} {f g : FieldName} (hf : r.FirstField f)
    (hg : r.FirstField g) (hkey : f.key = g.key) : f = g := by
  obtain ⟨key, id⟩ := f
  obtain ⟨key', id'⟩ := g
  obtain rfl : id = id' := hkey
  obtain ⟨raw, path, left, hraw, hclaim⟩ := hf
  obtain ⟨raw', path', left', hraw', hclaim'⟩ := hg
  obtain rfl := Except.ok.inj (hraw.symm.trans hraw')
  exact congrArg (FieldName.mk · id) (Prod.mk.inj (Namespace.claim_place hclaim hclaim')).1

/-- What is named at a site is what its node declares. -/
inductive Site.Fits (r : Rules) (s : Site) : Names → Prop
  | enum {info : Schema.Info} {type : String} {members : List (String × String)}
      (hnode : s.node = .enum info (members.map Prod.fst)) : Fits r s (.enum type members)
  | struct {info : Schema.Info} {required optional : List (String × Node)} {additional : Bool}
      {type : String} {fields : List FieldName}
      (hnode : s.node = .properties info required optional additional)
      (hkeys : fields.map FieldName.key = s.tag.toList ++ (required ++ optional).map Prod.fst)
      (hfirst : ∀ f ∈ fields.head?, r.FirstField f) : Fits r s (.struct type fields)
  | union {info : Schema.Info} {mapping : List (String × Node)} {type : String} {tag : FieldName}
      (hnode : s.node = .discriminator info tag.key mapping) (hfirst : r.FirstField tag) :
      Fits r s (.union type tag)

/-- The identifiers of members that are named among the types. -/
def Rules.memberIds (r : Rules) (names : Names) : List String :=
  if r.qualifyMembers.isTruthy then (names.members?.getD []).map Prod.snd else []

/-- What happens at a site: nothing is named, or a type is, unless it is given, and behind it the
members that are named among the types. -/
inductive NamesSite (r : Rules) (types : Namespace) (s : Site) : Option Names → Namespace → Prop
  | unnamed (hnode : s.node.isNamed = false) : NamesSite r types s none types
  | given {names : Names} {left : Namespace} (hnode : s.node.isNamed = true)
      (hfits : s.Fits r names) (hgiven : s.given = some names.type)
      (hhands : Hands types (r.memberIds names) left) : NamesSite r types s (some names) left
  | claimed {names : Names} {left : Namespace} (hnode : s.node.isNamed = true)
      (hfits : s.Fits r names) (hgiven : s.given = none)
      (hhands : Hands types (names.type :: r.memberIds names) left) :
      NamesSite r types s (some names) left

variable {r : Rules} {types left : Namespace} {nodes : List (Pointer × Names)} {s : Site}
  {path : Option String} {ss : List Site}

theorem map_key_of_nameFields {own : Namespace} {keys : List String} {fields : List FieldName}
    (h : nameFields r own path keys = .ok fields) : fields.map FieldName.key = keys := by
  induction keys generalizing own fields with
  | nil =>
    rw [nameFields, Except.ok.injEq] at h
    rw [← h, List.map_nil]
  | cons key keys ih =>
    simp only [nameFields, bind_eq_ok, pure_eq_ok] at h
    obtain ⟨raw, -, ⟨id, own'⟩, -, rest, hrest, rfl⟩ := h
    rw [List.map_cons, ih hrest]

theorem firstField_of_nameFields {keys : List String} {fields : List FieldName}
    (h : nameFields r (r.freshNames r.fieldReserved) path keys = .ok fields) :
    ∀ f ∈ fields.head?, r.FirstField f := by
  cases keys with
  | nil =>
    rw [nameFields, Except.ok.injEq] at h
    simp [← h]
  | cons key keys =>
    simp only [nameFields, bind_eq_ok, pure_eq_ok] at h
    obtain ⟨raw, hraw, ⟨id, own⟩, hclaim, rest, -, rfl⟩ := h
    intro f hf
    obtain rfl := Option.some.inj hf
    exact ⟨raw, path, own, hraw, hclaim⟩

theorem nameQualified_spec {segments values : List String} {members : List (String × String)}
    (h : nameQualified r types path segments values = .ok (members, left)) :
    members.map Prod.fst = values ∧ Hands types (members.map Prod.snd) left := by
  induction values generalizing types members with
  | nil =>
    rw [nameQualified, Except.ok.injEq, Prod.mk.injEq] at h
    obtain ⟨rfl, rfl⟩ := h
    exact ⟨rfl, .nil _⟩
  | cons value values ih =>
    simp only [nameQualified, bind_eq_ok, pure_eq_ok, Prod.mk.injEq] at h
    obtain ⟨raw, -, ⟨id, types'⟩, hclaim, ⟨rest, left'⟩, hrest, rfl, rfl⟩ := h
    obtain ⟨hkeys, hhands⟩ := ih hrest
    exact ⟨by rw [List.map_cons, hkeys], .cons hclaim hhands⟩

theorem map_fst_of_nameMembers {own : Namespace} {values : List String}
    {members : List (String × String)} (h : nameMembers r own path values = .ok members) :
    members.map Prod.fst = values := by
  induction values generalizing own members with
  | nil =>
    rw [nameMembers, Except.ok.injEq] at h
    rw [← h, List.map_nil]
  | cons value values ih =>
    simp only [nameMembers, bind_eq_ok, pure_eq_ok] at h
    obtain ⟨raw, -, ⟨id, own'⟩, -, rest, hrest, rfl⟩ := h
    rw [List.map_cons, ih hrest]

theorem exists_taken_of_nameType {type : String} (h : nameType r types s = .ok (type, left)) :
    ∃ taken, left = { types with taken := taken } := by
  unfold nameType at h
  split at h
  · rw [Except.ok.injEq, Prod.mk.injEq] at h
    exact ⟨types.taken, h.2.symm⟩
  · obtain ⟨raw, -, hclaim⟩ := bind_eq_ok.1 h
    exact ⟨_, (Namespace.claim_spec hclaim).2.1⟩

/-- A type that is named and the members behind it make a step of `NamesSite`. -/
theorem namesSite_of_nameType {type : String} {types' : Namespace} {names : Names}
    (h : nameType r types s = .ok (type, types')) (hnode : s.node.isNamed = true)
    (hfits : s.Fits r names) (htype : names.type = type)
    (hhands : Hands types' (r.memberIds names) left) : NamesSite r types s (some names) left := by
  unfold nameType at h
  split at h
  · next id hgiven =>
    rw [Except.ok.injEq, Prod.mk.injEq] at h
    obtain ⟨rfl, rfl⟩ := h
    exact .given hnode hfits (htype ▸ hgiven) hhands
  · next hgiven =>
    obtain ⟨raw, -, hclaim⟩ := bind_eq_ok.1 h
    exact .claimed hnode hfits hgiven (.cons (htype ▸ hclaim) hhands)

theorem namesSite_of_nameSite {result : Option Names} (h : nameSite r types s = .ok (result, left)) :
    NamesSite r types s result left := by
  unfold nameSite at h
  split at h
  · next info values hnode =>
    have hnamed : s.node.isNamed = true := by rw [hnode]; rfl
    obtain ⟨⟨type, types'⟩, htype, h⟩ := bind_eq_ok.1 h
    dsimp only at h
    split at h
    · next hqualify =>
      simp only [bind_eq_ok, pure_eq_ok, Prod.mk.injEq] at h
      obtain ⟨⟨members, left'⟩, hmembers, rfl, rfl⟩ := h
      obtain ⟨rfl, hhands⟩ := nameQualified_spec hmembers
      refine namesSite_of_nameType htype hnamed (.enum hnode) rfl ?_
      rwa [Rules.memberIds, if_pos hqualify]
    · next hqualify =>
      simp only [bind_eq_ok, pure_eq_ok, Prod.mk.injEq] at h
      obtain ⟨members, hmembers, rfl, rfl⟩ := h
      obtain rfl := map_fst_of_nameMembers hmembers
      refine namesSite_of_nameType htype hnamed (.enum hnode) rfl ?_
      rw [Rules.memberIds, if_neg hqualify]
      exact .nil _
  · next info required optional additional hnode =>
    have hnamed : s.node.isNamed = true := by rw [hnode]; rfl
    simp only [bind_eq_ok, pure_eq_ok, Prod.mk.injEq] at h
    obtain ⟨⟨type, types'⟩, htype, fields, hfields, rfl, rfl⟩ := h
    refine namesSite_of_nameType htype hnamed
      (.struct hnode (map_key_of_nameFields hfields) (firstField_of_nameFields hfields)) rfl ?_
    simpa [Rules.memberIds, Names.members?] using Hands.nil types'
  · next info tag mapping hnode =>
    have hnamed : s.node.isNamed = true := by rw [hnode]; rfl
    simp only [bind_eq_ok, pure_eq_ok, Prod.mk.injEq] at h
    obtain ⟨⟨type, types'⟩, htype, raw, hraw, ⟨id, own⟩, hclaim, rfl, rfl⟩ := h
    have hfits : s.Fits r (.union type ⟨id, tag⟩) := .union hnode ⟨raw, _, own, hraw, hclaim⟩
    refine namesSite_of_nameType htype hnamed hfits rfl ?_
    simpa [Rules.memberIds, Names.members?] using Hands.nil types'
  · next henum hproperties hdiscriminator =>
    rw [Except.ok.injEq, Prod.mk.injEq] at h
    obtain ⟨rfl, rfl⟩ := h
    refine .unnamed ?_
    cases hnode : s.node with
    | enum info values => exact absurd hnode (henum info values)
    | properties info req opt add => exact absurd hnode (hproperties info req opt add)
    | discriminator info tag mapping => exact absurd hnode (hdiscriminator info tag mapping)
    | empty | ref | type | elements | values => rfl

theorem NamesSite.exists_taken {result : Option Names} (h : NamesSite r types s result left) :
    ∃ taken, left = { types with taken := taken } := by
  cases h with
  | unnamed => exact ⟨_, rfl⟩
  | given _ _ _ hhands | claimed _ _ _ hhands => exact hhands.exists_taken

/-! ## Several sites -/

/-- The identifiers that are claimed for an entry of the table whose type is not given. -/
def Rules.scopeIds (r : Rules) (e : Pointer × Names) : List String := e.2.type :: r.memberIds e.2

theorem nameSites_cons {rest : List Site} (h : nameSites r types (s :: rest) = .ok (nodes, left)) :
    ∃ result types' others, NamesSite r types s result types' ∧
      nameSites r types' rest = .ok (others, left) ∧
      nodes = (result.map (s.node.path, ·)).toList ++ others := by
  simp only [nameSites, bind_eq_ok, pure_eq_ok, Prod.mk.injEq] at h
  obtain ⟨⟨result, types'⟩, hsite, ⟨others, left'⟩, hothers, rfl, rfl⟩ := h
  exact ⟨result, types', others, namesSite_of_nameSite hsite, hothers, rfl⟩

theorem map_fst_of_nameSites (h : nameSites r types ss = .ok (nodes, left)) :
    nodes.map Prod.fst = ((ss.map Site.node).filter Node.isNamed).map Node.path := by
  induction ss generalizing types nodes with
  | nil =>
    rw [nameSites, Except.ok.injEq, Prod.mk.injEq] at h
    rw [← h.1]
    rfl
  | cons s rest ih =>
    obtain ⟨result, types', others, hsite, hothers, rfl⟩ := nameSites_cons h
    cases hsite with
    | unnamed hnode => simp [hnode, ih hothers]
    | given hnode | claimed hnode => simp [hnode, ih hothers]

theorem fits_of_nameSites (h : nameSites r types ss = .ok (nodes, left)) :
    ∀ s ∈ ss, s.node.isNamed = true → ∃ names, (s.node.path, names) ∈ nodes ∧ s.Fits r names := by
  induction ss generalizing types nodes with
  | nil => simp
  | cons s rest ih =>
    obtain ⟨result, types', others, hsite, hothers, rfl⟩ := nameSites_cons h
    refine List.forall_mem_cons.2 ⟨fun hnamed => ?_, fun s' hs' hnamed => ?_⟩
    · cases hsite with
      | unnamed hnode => rw [hnode] at hnamed; cases hnamed
      | given hnode hfits | claimed hnode hfits => exact ⟨_, by simp, hfits⟩
    · obtain ⟨names, hmem, hfits⟩ := ih hothers s' hs' hnamed
      exact ⟨names, List.mem_append_right _ hmem, hfits⟩

theorem hands_of_nameSites (h : nameSites r types ss = .ok (nodes, left))
    (hgiven : ∀ s ∈ ss, s.given = none) : Hands types (nodes.flatMap r.scopeIds) left := by
  induction ss generalizing types nodes with
  | nil =>
    rw [nameSites, Except.ok.injEq, Prod.mk.injEq] at h
    obtain ⟨rfl, rfl⟩ := h
    exact .nil _
  | cons s rest ih =>
    obtain ⟨result, types', others, hsite, hothers, rfl⟩ := nameSites_cons h
    rw [List.forall_mem_cons] at hgiven
    rw [List.flatMap_append]
    refine Hands.append ?_ (ih hothers hgiven.2)
    cases hsite with
    | unnamed => exact .nil _
    | given _ _ hsome => rw [hgiven.1] at hsome; cases hsome
    | claimed _ _ _ hhands => simpa [Rules.scopeIds] using hhands

/-! ## Bodies -/

/-- The table has what the mapping of a node needs. -/
def Covers (nodes : List (Pointer × Names)) : Node → Prop
  | .enum info values =>
    ∃ type members, (info.path, .enum type members) ∈ nodes ∧ members.map Prod.fst = values
  | .properties info required optional _ =>
    ∃ type fields, (info.path, .struct type fields) ∈ nodes ∧
      ∀ key ∈ (required ++ optional).map Prod.fst, key ∈ fields.map FieldName.key
  | .discriminator info tag mapping =>
    ∃ type field, (info.path, .union type field) ∈ nodes ∧ field.key = tag ∧
      ∀ e ∈ mapping, e.2.form = .properties →
        ∃ type' rest, (e.2.path, .struct type' (field :: rest)) ∈ nodes
  | _ => True

theorem Covers.mono {more : List (Pointer × Names)} {n : Node} (h : Covers nodes n)
    (hsub : nodes ⊆ more) : Covers more n := by
  cases n with
  | enum info values =>
    obtain ⟨type, members, hmem, hvalues⟩ := h
    exact ⟨type, members, hsub hmem, hvalues⟩
  | properties info required optional additional =>
    obtain ⟨type, fields, hmem, hkeys⟩ := h
    exact ⟨type, fields, hsub hmem, hkeys⟩
  | discriminator info tag mapping =>
    obtain ⟨type, field, hmem, hkey, hbranches⟩ := h
    refine ⟨type, field, hsub hmem, hkey, fun e he hform => ?_⟩
    obtain ⟨type', rest, hmem'⟩ := hbranches e he hform
    exact ⟨type', rest, hsub hmem'⟩
  | empty | ref | type | elements | values => trivial

/-- A branch of a union is a site that knows the union's tag. -/
theorem exists_branch_site {pending : List Site} (hs : s ∈ sites pending) {info : Schema.Info}
    {tag : String} {mapping : List (String × Node)}
    (hnode : s.node = .discriminator info tag mapping) {e : String × Node} (he : e ∈ mapping) :
    ∃ c ∈ sites pending, c.node = e.2 ∧ c.tag = some tag := by
  have hchild : (⟨e.2, s.segments ++ [e.1], some tag, none⟩ : Site) ∈ s.children := by
    rw [Site.children, hnode]
    exact List.mem_map.2 ⟨e, he, rfl⟩
  exact ⟨_, mem_sites_of_child hs hchild, rfl, rfl⟩

/-- The first field of a branch is the tag of its union. -/
theorem exists_fields_of_fits {names : Names} (hfits : s.Fits r names)
    (hform : s.node.form = .properties) {tag : FieldName} (hfirst : r.FirstField tag)
    (htag : s.tag = some tag.key) : ∃ type rest, names = .struct type (tag :: rest) := by
  cases hfits with
  | @struct _ _ _ _ type fields _ hkeys hfields =>
    rw [htag, Option.toList_some, List.singleton_append] at hkeys
    obtain ⟨f, rest, rfl, hkey, -⟩ := List.map_eq_cons_iff.1 hkeys
    exact ⟨type, rest, by rw [(hfields f rfl).unique hfirst hkey]⟩
  | enum hnode | union hnode => rw [hnode] at hform; cases hform

theorem covers_of_nameSites {pending : List Site}
    (h : nameSites r types (sites pending) = .ok (nodes, left)) :
    ∀ s ∈ sites pending, Covers nodes s.node := by
  intro s hs
  have hfits := fits_of_nameSites h
  cases hnamed : s.node.isNamed with
  | false =>
    cases hnode : s.node with
    | enum | properties | discriminator => rw [hnode] at hnamed; cases hnamed
    | empty | ref | type | elements | values => trivial
  | true =>
    obtain ⟨names, hmem, hfit⟩ := hfits s hs hnamed
    cases hfit with
    | enum hnode =>
      rw [hnode] at hmem ⊢
      exact ⟨_, _, hmem, rfl⟩
    | struct hnode hkeys =>
      rw [hnode] at hmem ⊢
      exact ⟨_, _, hmem, fun key hkey => hkeys ▸ List.mem_append_right _ hkey⟩
    | @union info mapping type tag hnode hfirst =>
      rw [hnode] at hmem ⊢
      refine ⟨type, tag, hmem, rfl, fun e he hform => ?_⟩
      obtain ⟨c, hc, hcnode, hctag⟩ := exists_branch_site hs hnode he
      rw [← hcnode] at hform ⊢
      obtain ⟨names, hmem', hfit'⟩ := hfits c hc (by rw [Node.isNamed, hform]; rfl)
      obtain ⟨type', rest, rfl⟩ := exists_fields_of_fits hfit' hform hfirst hctag
      exact ⟨type', rest, hmem'⟩

/-- What is named in the body of a definition: its type, the members of that type, and what is
nested in it. -/
theorem nameBody_spec {name id : String} {body : Node}
    (h : nameBody r types name body = .ok (id, nodes, left)) :
    ∃ (own : Option Names) (nested : List (Pointer × Names)),
      nodes = (own.map (body.path, ·)).toList ++ nested ∧
      own.isSome = body.isNamed ∧ (∀ names ∈ own, names.type = id) ∧
      nested.map Prod.fst =
        ((body.children.flatMap Node.preorder).filter Node.isNamed).map Node.path ∧
      Hands types (id :: (own.toList.flatMap r.memberIds ++ nested.flatMap r.scopeIds)) left := by
  simp only [nameBody, bind_eq_ok, pure_eq_ok, Prod.mk.injEq] at h
  obtain ⟨raw, -, ⟨id', types'⟩, hclaim, ⟨nodes', left'⟩, hnodes, rfl, rfl, rfl⟩ := h
  rw [sites, List.append_nil] at hnodes
  obtain ⟨own, types'', nested, hsite, hnested, rfl⟩ := nameSites_cons hnodes
  have hhands : Hands types'' (nested.flatMap r.scopeIds) left' :=
    hands_of_nameSites hnested (given_of_mem_sites fun c hc => given_of_mem_children hc)
  have hpaths := map_fst_of_nameSites hnested
  rw [map_node_sites, Site.map_node_children] at hpaths
  refine ⟨own, nested, rfl, ?_, ?_, hpaths, .cons hclaim (.append ?_ hhands)⟩
  · cases hsite with
    | unnamed hnode => exact hnode.symm
    | given hnode | claimed hnode => exact hnode.symm
  · cases hsite with
    | unnamed => simp
    | given _ _ hgiven =>
      rintro names hnames
      cases hnames
      exact (Option.some.inj hgiven).symm
    | claimed _ _ hgiven => cases hgiven
  · cases hsite with
    | unnamed => exact .nil _
    | given _ _ _ hhands => simpa using hhands
    | claimed _ _ hgiven => cases hgiven

theorem covers_of_nameBody {name id : String} {body : Node}
    (h : nameBody r types name body = .ok (id, nodes, left)) :
    ∀ m ∈ body.preorder, Covers nodes m := by
  simp only [nameBody, bind_eq_ok, pure_eq_ok, Prod.mk.injEq] at h
  obtain ⟨raw, -, ⟨id', types'⟩, -, ⟨nodes', left'⟩, hnodes, -, rfl, -⟩ := h
  intro m hm
  have hnode : m ∈ (sites [⟨body, [name], none, some id'⟩]).map Site.node := by
    rw [map_node_sites]
    simpa using hm
  obtain ⟨s, hs, rfl⟩ := List.mem_map.1 hnode
  exact covers_of_nameSites hnodes s hs

end Typegen.Naming
