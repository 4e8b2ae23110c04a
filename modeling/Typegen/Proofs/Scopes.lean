import Typegen.Proofs.TypeNames

/-!
# Names of fields, tags and members

Fields, and the members of enumerations where they are not named like types, are named in
namespaces of their own.  `Site.NamedIn` says that a site has been named and where the names are.
Every node of a schema is the node of such a site, and the site knows a tag just when the node is a
branch of a union (`exists_namedIn`, `exists_namedIn_branch`), so what holds of the naming of a
single site holds of the whole table.
-/

namespace Typegen.Schema

/-- A node is a branch of a union with the given tag. -/
def HasBranch (s : Schema) (tag : String) (n : Node) : Prop :=
  ∃ info mapping value, Node.discriminator info tag mapping ∈ s.walk ∧ (value, n) ∈ mapping

end Typegen.Schema

namespace Typegen.Naming

open Schema (Node)
open Namespace (Hands)

variable {r : Rules} {types left : Namespace}

/-! ## Tags of sites -/

/-- A site that knows a tag is a branch, unless it is among those to begin with. -/
theorem tag_of_mem_sites {P : String → Node → Prop} {pending : List Site}
    (hpending : ∀ s ∈ pending, ∀ tag, s.tag = some tag → P tag s.node)
    (hbranch : ∀ s ∈ sites pending, ∀ info tag mapping value n,
      s.node = .discriminator info tag mapping → (value, n) ∈ mapping → P tag n) :
    ∀ s ∈ sites pending, ∀ tag, s.tag = some tag → P tag s.node := by
  fun_induction sites pending with
  | case1 => simp
  | case2 s rest ih =>
    rw [List.forall_mem_cons] at hpending hbranch
    refine List.forall_mem_cons.2 ⟨hpending.1, ih (fun c hc tag htag => ?_) hbranch.2⟩
    rcases List.mem_append.1 hc with hc | hc
    · unfold Site.children at hc
      split at hc
      · rw [List.mem_singleton.1 hc] at htag
        cases htag
      · rw [List.mem_singleton.1 hc] at htag
        cases htag
      · obtain ⟨e, -, rfl⟩ := List.mem_map.1 hc
        cases htag
      · next info tag' mapping hnode =>
        obtain ⟨e, he, rfl⟩ := List.mem_map.1 hc
        obtain rfl := Option.some.inj htag
        exact hbranch.1 info tag' mapping e.1 e.2 hnode he
      · simp at hc
    · exact hpending.2 c hc tag htag

/-! ## One site -/

theorem hands_of_nameFields {own : Namespace} {path : Option String} {keys : List String}
    {fields : List FieldName} (h : nameFields r own path keys = .ok fields) :
    ∃ left, Hands own (fields.map FieldName.identifier) left := by
  induction keys generalizing own fields with
  | nil =>
    rw [nameFields, Except.ok.injEq] at h
    rw [← h]
    exact ⟨own, .nil own⟩
  | cons key keys ih =>
    simp only [nameFields, bind_eq_ok, pure_eq_ok] at h
    obtain ⟨raw, -, ⟨id, own'⟩, hclaim, rest, hrest, rfl⟩ := h
    obtain ⟨left, hhands⟩ := ih hrest
    exact ⟨left, .cons hclaim hhands⟩

theorem hands_of_nameMembers {own : Namespace} {path : Option String} {values : List String}
    {members : List (String × String)} (h : nameMembers r own path values = .ok members) :
    ∃ left, Hands own (members.map Prod.snd) left := by
  induction values generalizing own members with
  | nil =>
    rw [nameMembers, Except.ok.injEq] at h
    rw [← h]
    exact ⟨own, .nil own⟩
  | cons value values ih =>
    simp only [nameMembers, bind_eq_ok, pure_eq_ok] at h
    obtain ⟨raw, -, ⟨id, own'⟩, hclaim, rest, hrest, rfl⟩ := h
    obtain ⟨left, hhands⟩ := ih hrest
    exact ⟨left, .cons hclaim hhands⟩

variable {s : Site} {nodes : List (Pointer × Names)}

theorem nameSite_properties {result : Option Names} {info : Schema.Info}
    {required optional : List (String × Node)} {additional : Bool}
    (h : nameSite r types s = .ok (result, left))
    (hnode : s.node = .properties info required optional additional) :
    ∃ type fields, result = some (.struct type fields) ∧
      nameFields r (r.freshNames r.fieldReserved) (some s.node.path.text)
        (s.tag.toList ++ (required ++ optional).map Prod.fst) = .ok fields := by
  simp only [nameSite, hnode, bind_eq_ok, pure_eq_ok, Prod.mk.injEq] at h ⊢
  obtain ⟨⟨type, types'⟩, -, fields, hfields, rfl, -⟩ := h
  exact ⟨type, fields, rfl, hfields⟩

/-- The members of an enumeration are handed out by some namespace in which the words are reserved
that no type may be called. -/
theorem nameSite_enum {result : Option Names} {info : Schema.Info} {values : List String}
    (h : nameSite r types s = .ok (result, left)) (hnode : s.node = .enum info values)
    (hreserved : types.reserved = r.reserved.words) :
    ∃ type members, result = some (.enum type members) ∧ members.map Prod.fst = values ∧
      ∃ own own', own.reserved = r.reserved.words ∧ Hands own (members.map Prod.snd) own' := by
  simp only [nameSite, hnode] at h
  obtain ⟨⟨type, types'⟩, htype, h⟩ := bind_eq_ok.1 h
  dsimp only at h
  split at h
  · simp only [bind_eq_ok, pure_eq_ok, Prod.mk.injEq] at h
    obtain ⟨⟨members, left'⟩, hmembers, rfl, rfl⟩ := h
    obtain ⟨hvalues, hhands⟩ := nameQualified_spec hmembers
    obtain ⟨taken, rfl⟩ := exists_taken_of_nameType htype
    exact ⟨type, members, rfl, hvalues, { types with taken := taken }, left', hreserved, hhands⟩
  · simp only [bind_eq_ok, pure_eq_ok, Prod.mk.injEq] at h
    obtain ⟨members, hmembers, rfl, rfl⟩ := h
    obtain ⟨own', hhands⟩ := hands_of_nameMembers hmembers
    exact ⟨type, members, rfl, map_fst_of_nameMembers hmembers, _, own', rfl, hhands⟩

/-! ## Sites of a table -/

/-- A site has been named, with some types taken before, and its names are in a list. -/
def Site.NamedIn (r : Rules) (nodes : List (Pointer × Names)) (s : Site) : Prop :=
  ∃ taken result left, nameSite r { r.freshNames r.reserved with taken := taken } s =
    .ok (result, left) ∧ ∀ names ∈ result, (s.node.path, names) ∈ nodes

theorem Site.NamedIn.mono {more : List (Pointer × Names)} (h : s.NamedIn r nodes)
    (hsub : nodes ⊆ more) : s.NamedIn r more := by
  obtain ⟨taken, result, left, hsite, hmem⟩ := h
  exact ⟨taken, result, left, hsite, fun names hnames => hsub (hmem names hnames)⟩

theorem namedIn_of_nameSites {taken : List String} {ss : List Site}
    (h : nameSites r { r.freshNames r.reserved with taken := taken } ss = .ok (nodes, left)) :
    ∀ s ∈ ss, s.NamedIn r nodes := by
  induction ss generalizing taken nodes with
  | nil => simp
  | cons s rest ih =>
    simp only [nameSites, bind_eq_ok, pure_eq_ok, Prod.mk.injEq] at h
    obtain ⟨⟨result, types'⟩, hsite, ⟨others, left'⟩, hothers, rfl, rfl⟩ := h
    obtain ⟨taken', rfl⟩ := (namesSite_of_nameSite hsite).exists_taken
    refine List.forall_mem_cons.2
      ⟨⟨taken, result, _, hsite, fun names hnames => ?_⟩, fun s' hs' => ?_⟩
    · cases hnames
      exact List.mem_append_left _ (by simp)
    · exact (ih hothers s' hs').mono (List.subset_append_right _ _)

/-- The site of a body. -/
def bodySite (name id : String) (body : Node) : Site :=
  { node := body, segments := [name], given := id }

theorem namedIn_of_nameDefinitions {taken : List String} {entries : List (String × Node)}
    {ids : List (String × String)}
    (h : nameDefinitions r { r.freshNames r.reserved with taken := taken } entries =
      .ok (ids, nodes, left)) :
    ∀ e ∈ entries, ∃ id, ∀ s ∈ sites [bodySite e.1 id e.2], s.NamedIn r nodes := by
  induction entries generalizing taken ids nodes with
  | nil => simp
  | cons e entries ih =>
    obtain ⟨id, own, types', ids', others, hbody, hrest, rfl, rfl⟩ := nameDefinitions_cons h
    obtain ⟨_, _, -, -, -, -, hhands⟩ := nameBody_spec hbody
    obtain ⟨taken', rfl⟩ := hhands.exists_taken
    refine List.forall_mem_cons.2 ⟨⟨id, fun s hs => ?_⟩, fun e' he' => ?_⟩
    · simp only [nameBody, bind_eq_ok, pure_eq_ok, Prod.mk.injEq] at hbody
      obtain ⟨raw, -, ⟨id', types⟩, hclaim, ⟨nodes', left'⟩, hnodes, rfl, rfl, -⟩ := hbody
      obtain ⟨-, rfl, -⟩ := Namespace.claim_spec hclaim
      exact (namedIn_of_nameSites hnodes s hs).mono (List.subset_append_left _ _)
    · obtain ⟨id', hsites⟩ := ih hrest e' he'
      exact ⟨id', fun s hs => (hsites s hs).mono (List.subset_append_right _ _)⟩

section Table

variable {schema : Schema} {rootName : Json} {t : Table} {n : Node}

/-- The sites of some body of a schema have all been named, and those with a tag are branches. -/
theorem exists_sites_of_assign (h : assign r schema rootName = .ok t) (hn : n ∈ schema.walk) :
    ∃ pending, n ∈ (sites pending).map Site.node ∧ (∀ s ∈ sites pending, s.NamedIn r t.nodes) ∧
      ∀ s ∈ sites pending, ∀ tag, s.tag = some tag → schema.HasBranch tag s.node := by
  obtain ⟨text, left, h⟩ := assign_eq_ok h
  have hwalk : schema.walk =
      ((schema.definitions ++ [(text, schema.root)]).map Prod.snd).flatMap Node.preorder := by
    rw [Schema.walk, Schema.visit_eq_flatMap, List.map_append]
    rfl
  rw [hwalk] at hn
  obtain ⟨body, hbody, hn⟩ := List.mem_flatMap.1 hn
  obtain ⟨e, he, rfl⟩ := List.mem_map.1 hbody
  obtain ⟨id, hnamed⟩ := namedIn_of_nameDefinitions h e he
  have hnodes : (sites [bodySite e.1 id e.2]).map Site.node = e.2.preorder := by
    rw [map_node_sites, List.map_singleton, List.flatMap_singleton]
    rfl
  refine ⟨[bodySite e.1 id e.2], hnodes ▸ hn, hnamed, tag_of_mem_sites ?_ ?_⟩
  · intro s hs tag htag
    rw [List.mem_singleton.1 hs] at htag
    cases htag
  · intro s hs info tag mapping value n hnode hvalue
    refine ⟨info, mapping, value, ?_, hvalue⟩
    rw [hwalk, ← hnode]
    exact List.mem_flatMap.2 ⟨e.2, hbody, hnodes ▸ List.mem_map_of_mem hs⟩

theorem exists_namedIn (h : assign r schema rootName = .ok t) (hn : n ∈ schema.walk) :
    ∃ s : Site, s.node = n ∧ s.NamedIn r t.nodes ∧
      ∀ tag, s.tag = some tag → schema.HasBranch tag n := by
  obtain ⟨pending, hmem, hnamed, htags⟩ := exists_sites_of_assign h hn
  obtain ⟨s, hs, rfl⟩ := List.mem_map.1 hmem
  exact ⟨s, rfl, hnamed s hs, htags s hs⟩

theorem exists_namedIn_branch (h : assign r schema rootName = .ok t) {tag : String}
    (hn : schema.HasBranch tag n) : ∃ s : Site, s.node = n ∧ s.NamedIn r t.nodes ∧
      s.tag = some tag := by
  obtain ⟨info, mapping, value, hwalk, hvalue⟩ := hn
  obtain ⟨pending, hmem, hnamed, -⟩ := exists_sites_of_assign h hwalk
  obtain ⟨s, hs, hnode⟩ := List.mem_map.1 hmem
  obtain ⟨c, hc, hcnode, hctag⟩ := exists_branch_site hs hnode hvalue
  exact ⟨c, hcnode, hnamed c hc, hctag⟩

/-! ## Keys of fields -/

theorem fieldsOf_eq (ht : (t.nodes.map Prod.fst).Nodup) {p : Pointer} {type : String}
    {fields : List FieldName} (hentry : (p, .struct type fields) ∈ t.nodes) :
    t.fieldsOf p = fields := by
  rw [Table.fieldsOf, lookup_of_mem ht hentry]
  rfl

theorem fieldName_of_mem (ht : (t.nodes.map Prod.fst).Nodup) {p : Pointer} {type : String}
    {fields : List FieldName} (hentry : (p, .struct type fields) ∈ t.nodes)
    (hkeys : (fields.map FieldName.key).Nodup) {f : FieldName} (hf : f ∈ fields) :
    t.fieldName p f.key = .ok f := by
  refine (Table.fieldName_eq_ok ht).2 ⟨type, fields, hentry, ?_⟩
  obtain ⟨before, after, rfl⟩ := List.append_of_mem hf
  rw [List.map_append, List.map_cons, List.nodup_append'] at hkeys
  have hbefore : before.find? (fun g => decide (g.key = f.key)) = none := by
    rw [List.find?_eq_none]
    intro g hg hkey
    exact hkeys.2.2 (List.mem_map_of_mem hg) (by simp [of_decide_eq_true hkey])
  rw [List.find?_append, hbefore]
  simp

/-- The fields of a site: their keys are the tag, if the site has one, and the keys of the node, and
their identifiers come out of a namespace of their own. -/
theorem Site.NamedIn.exists_fields {s : Site} {info : Schema.Info}
    {required optional : List (String × Node)} {additional : Bool} (h : s.NamedIn r t.nodes)
    (hnode : s.node = .properties info required optional additional) :
    ∃ type fields left, (info.path, .struct type fields) ∈ t.nodes ∧
      fields.map FieldName.key = s.tag.toList ++ (required ++ optional).map Prod.fst ∧
      Hands (r.freshNames r.fieldReserved) (fields.map FieldName.identifier) left := by
  obtain ⟨taken, result, left, hsite, hmem⟩ := h
  obtain ⟨type, fields, rfl, hfields⟩ := nameSite_properties hsite hnode
  obtain ⟨left', hhands⟩ := hands_of_nameFields hfields
  have hentry := hmem _ rfl
  rw [hnode] at hentry
  exact ⟨type, fields, left', hentry, map_key_of_nameFields hfields, hhands⟩

theorem nodup_keys_of_site (hsound : schema.Sound) {s : Site} {info : Schema.Info}
    {required optional : List (String × Node)} {additional : Bool}
    (hnode : s.node = .properties info required optional additional)
    (hwalk : s.node ∈ schema.walk)
    (htags : ∀ tag, s.tag = some tag → schema.HasBranch tag s.node) :
    (s.tag.toList ++ (required ++ optional).map Prod.fst).Nodup := by
  have hkeys : ((required ++ optional).map Prod.fst).Nodup := by
    have hs := hsound.of_mem_walk hwalk
    rw [hnode] at hs
    cases hs with
    | properties _ hkeys => exact hkeys
  cases htag : s.tag with
  | none => exact hkeys
  | some tag =>
    obtain ⟨info', mapping, value, hunion, hvalue⟩ := htags tag htag
    cases hsound.of_mem_walk hunion with
    | discriminator _ _ _ hbranches =>
      obtain ⟨_, _, _, _, heq, -, hfree⟩ := hbranches _ hvalue
      cases hnode.symm.trans heq
      exact List.nodup_cons.2 ⟨hfree, hkeys⟩

end Table

/-- Fields, tags and members.  The fields of a struct are those of its keys, behind the tag if the
struct is a branch of a union, and each is found by its key; the tag of a union is the first field of
all its branches; the members of an enumeration are its values in order.  Identifiers in one scope
are different from each other and not reserved. -/
theorem fieldScopes_of_assign {document : Json} {schema : Schema} {r : Rules} {rootName : Json}
    {t : Table} (hdistinct : document.Distinct) (hresolve : Schema.resolve document = .ok schema)
    (hassign : assign r schema rootName = .ok t) :
    (∀ info required optional additional,
      Node.properties info required optional additional ∈ schema.walk →
      (∀ tag, schema.HasBranch tag (.properties info required optional additional) →
        (t.fieldsOf info.path).map FieldName.key = tag :: (required ++ optional).map Prod.fst) ∧
      ((∀ tag, ¬schema.HasBranch tag (.properties info required optional additional)) →
        (t.fieldsOf info.path).map FieldName.key = (required ++ optional).map Prod.fst) ∧
      (∀ f ∈ t.fieldsOf info.path, t.fieldName info.path f.key = .ok f) ∧
      ((t.fieldsOf info.path).map FieldName.identifier).Nodup ∧
      ∀ f ∈ t.fieldsOf info.path, f.identifier ∉ r.fieldReserved.words) ∧
    (∀ info tag mapping, Node.discriminator info tag mapping ∈ schema.walk →
      ∃ f, t.tagField info.path = .ok f ∧ f.key = tag ∧
        ∀ e ∈ mapping, t.fieldName e.2.path tag = .ok f) ∧
    ∀ info values, Node.enum info values ∈ schema.walk →
      ∃ members, t.at? Names.members? info.path = .ok members ∧
        members.map Prod.fst = values ∧
        (∀ m ∈ members, t.enumMember info.path m.1 = .ok m.2) ∧
        (members.map Prod.snd).Nodup ∧ ∀ m ∈ members, m.2 ∉ r.reserved.words := by
  have hsound := Schema.sound_of_resolve hdistinct hresolve
  have hsuits := Table.suits_of_assign hassign
  have hnodes := hsuits.nodup_nodes hsound
  refine ⟨?_, ?_, ?_⟩
  · intro info required optional additional hwalk
    obtain ⟨s, hnode, hnamed, htags⟩ := exists_namedIn hassign hwalk
    obtain ⟨type, fields, left, hentry, hkeys, hhands⟩ := hnamed.exists_fields hnode
    rw [fieldsOf_eq hnodes hentry]
    refine ⟨fun tag hbranch => ?_, fun hnone => ?_, fun f hf => ?_, hhands.nodup, fun f hf => ?_⟩
    · obtain ⟨s', hnode', hnamed', htag'⟩ := exists_namedIn_branch hassign hbranch
      obtain ⟨type', fields', _, hentry', hkeys', -⟩ := hnamed'.exists_fields hnode'
      cases (lookup_of_mem hnodes hentry).symm.trans (lookup_of_mem hnodes hentry')
      rw [hkeys', htag']
      rfl
    · cases htag : s.tag with
      | none => rw [hkeys, htag, Option.toList_none, List.nil_append]
      | some tag => exact absurd (htags tag htag) (hnone tag)
    · refine fieldName_of_mem hnodes hentry ?_ hf
      rw [hkeys]
      exact nodup_keys_of_site hsound hnode (hnode ▸ hwalk) (hnode ▸ htags)
    · exact hhands.notMem_reserved (List.mem_map_of_mem hf)
  · intro info tag mapping hwalk
    obtain ⟨type, f, hentry, rfl, hbranches⟩ := hsuits.covers _ hwalk
    refine ⟨f, (Table.tagField_eq_ok hnodes).2 ⟨type, hentry⟩, rfl, fun e he => ?_⟩
    have hform : e.2.form = .properties := by
      cases hsound.of_mem_walk hwalk with
      | discriminator _ _ _ hbranch =>
        obtain ⟨_, _, _, _, heq, -⟩ := hbranch e he
        rw [heq]
        rfl
    obtain ⟨type', rest, hentry'⟩ := hbranches e he hform
    exact (Table.fieldName_eq_ok hnodes).2 ⟨type', _, hentry', by simp⟩
  · intro info values hwalk
    obtain ⟨s, hnode, ⟨taken, result, left, hsite, hmem⟩, -⟩ := exists_namedIn hassign hwalk
    obtain ⟨type, members, rfl, rfl, own, own', hreserved, hhands⟩ :=
      nameSite_enum hsite hnode rfl
    have hentry := hmem _ rfl
    rw [hnode] at hentry
    refine ⟨members, (Table.at?_eq_ok hnodes).2 ⟨_, hentry, rfl⟩, rfl, fun m hm => ?_,
      hhands.nodup, fun m hm => ?_⟩
    · have hvalues : (members.map Prod.fst).Nodup := by
        cases hsound.of_mem_walk hwalk with
        | enum _ hvalues => exact hvalues
      exact (Table.enumMember_eq_ok hnodes).2 ⟨type, members, hentry, lookup_of_mem hvalues hm⟩
    · rw [← hreserved]
      exact hhands.notMem_reserved (List.mem_map_of_mem hm)

/-- Rules that reserve the tag of the sketch, also with what is put behind reserved words. -/
def tightRules : Rules :=
  { sketchRules with ownFieldReserved := some ⟨["kind", "kind_"], []⟩ }

/-- The names of the sketch by these rules. -/
def tightNames : Table :=
  { sketchNames with
    nodes := [
      (⟨["definitions", "color"]⟩, .enum "color_" [("red", "color_r"), ("class", "color_c")]),
      (⟨[]⟩, .union "sketch" ⟨"kind_2", "kind"⟩),
      (⟨["mapping", "dot"]⟩, .struct "sketch_" [⟨"kind_2", "kind"⟩, ⟨"tint", "tint"⟩]),
      (⟨["mapping", "dash"]⟩, .struct "sketch2" [⟨"kind_2", "kind"⟩, ⟨"ends", "ends"⟩])] }

theorem assign_tight : assign tightRules sketchSchema (.string "sketch") = .ok tightNames := by
  with_unfolding_all rfl

theorem fieldScopes_sketch :
    sketchDocument.Distinct ∧ Schema.resolve sketchDocument = .ok sketchSchema ∧
      assign tightRules sketchSchema (.string "sketch") = .ok tightNames ∧
      tightNames.tagField .root = .ok ⟨"kind_2", "kind"⟩ ∧
      (∀ value ∈ ["dot", "dash"],
        tightNames.fieldName ⟨["mapping", value]⟩ "kind" = .ok ⟨"kind_2", "kind"⟩) ∧
      (tightNames.fieldsOf ⟨["mapping", "dot"]⟩).map FieldName.key = ["kind", "tint"] ∧
      ((tightNames.fieldsOf ⟨["mapping", "dot"]⟩).map FieldName.identifier).Nodup ∧
      ∃ members, tightNames.at? Names.members? ⟨["definitions", "color"]⟩ = .ok members ∧
        members.map Prod.fst = ["red", "class"] ∧ (members.map Prod.snd).Nodup := by
  obtain ⟨hstructs, hunions, henums⟩ :=
    fieldScopes_of_assign distinct_sketch resolve_sketch assign_tight
  have hroot := Schema.root_mem_walk sketchSchema
  obtain ⟨f, hf, -, hbranches⟩ := hunions _ _ _ hroot
  have htag : tightNames.tagField .root = .ok ⟨"kind_2", "kind"⟩ := rfl
  obtain rfl := Except.ok.inj (htag.symm.trans hf)
  obtain ⟨hkeys, -, -, hnodup, -⟩ :=
    hstructs _ _ _ _ (Schema.mem_visit_of_child hroot List.mem_cons_self)
  obtain ⟨members, hmembers, hvalues, -, hmembersNodup, -⟩ :=
    henums _ _ (Schema.mem_walk_of_definition (s := sketchSchema) List.mem_cons_self)
  refine ⟨distinct_sketch, resolve_sketch, assign_tight, htag, ?_, ?_, hnodup, members, hmembers,
    hvalues, hmembersNodup⟩
  · simp only [List.forall_mem_cons]
    exact ⟨hbranches _ List.mem_cons_self,
      hbranches _ (List.mem_cons_of_mem _ List.mem_cons_self), by simp⟩
  · exact hkeys "kind" ⟨_, _, "dot", hroot, List.mem_cons_self⟩

end Typegen.Naming
