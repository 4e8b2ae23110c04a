import Typegen.Proofs.Formed

/-!
# What is declared

The declarations that come out of the mapping of a schema.  `Builds` tells how the declaration of a
node is put together, and `Declares` what it is named and where it is; the declarations of a run
other than aliases are those of the nodes that declare a type, in the order in which the nodes are
visited.  It follows that nothing is declared twice, that every type that is mentioned is declared,
and that every branch of a union comes behind its union and knows it.
-/

namespace Typegen

/-! ## Mentioned types -/

/-- Every declared type that an expression mentions has a property. -/
def TypeExpr.Mentions (P : String → Prop) (t : TypeExpr) : Prop :=
  ∀ e ∈ t.walk, e.kind = .named → P e.name

/-- Every declared type that a declaration mentions has a property. -/
def Declaration.Mentions (P : String → Prop) (d : Declaration) : Prop :=
  ∀ t ∈ d.types, t.Mentions P

end Typegen

namespace Typegen.Mapping

open Schema (Node Info)
open scoped List

/-! ## Declarations of nodes -/

/-- A node that declares a type, and the declaration. -/
inductive Declares (names : Naming.Table) : Node → Declaration → Prop
  | enum {info : Info} {values : List String} {name : String} {members : List (String × String)}
      (hname : names.typeName info.path = .ok name) :
      Declares names (.enum info values)
        (.enum ⟨name, info.path.text, info.description⟩ members)
  | struct {info : Info} {required optional : List (String × Node)} {additional : Bool}
      {name : String} {fields : List Field} {base : Option String}
      (hname : names.typeName info.path = .ok name) :
      Declares names (.properties info required optional additional)
        (.struct ⟨name, info.path.text, info.description⟩ fields base additional)
  | union {info : Info} {tag : String} {mapping : List (String × Node)} {name : String}
      {field : Naming.FieldName} {variants : List (String × String)}
      (hfield : names.tagField info.path = .ok field)
      (hname : names.typeName info.path = .ok name) :
      Declares names (.discriminator info tag mapping)
        (.union ⟨name, info.path.text, info.description⟩ field.identifier field.key variants)

section

variable {names : Naming.Table} {n : Node} {d : Declaration}

theorem Declares.path_eq (h : Declares names n d) : d.header.path = n.path.text := by
  cases h <;> rfl

theorem Declares.typeName (h : Declares names n d) : names.typeName n.path = .ok d.name := by
  cases h <;> assumption

theorem Declares.not_isAlias (h : Declares names n d) : d.isAlias = false := by
  cases h <;> rfl

end

/-- How the declaration of a node that declares a type is put together.  A struct has the fields of
its keys, and where it is a branch, the tag in front of them. -/
inductive Builds (s : Scope) : Node → Declaration → Prop
  | enum {info : Info} {values : List String} {name : String} {members : List (String × String)}
      (hname : s.names.typeName info.path = .ok name) :
      Builds s (.enum info values) (.enum ⟨name, info.path.text, info.description⟩ members)
  | struct {info : Info} {required optional : List (String × Node)} {additional : Bool}
      {name : String} {first second : List Field} {nested more : List Declaration}
      (tags : List Field) (base : Option String)
      (htags : ∀ f ∈ tags, ∃ branch name, f = Branch.field branch name)
      (hfirst : mapFields { s with inContainer := false } info.path false required =
        .ok (first, nested))
      (hsecond : mapFields { s with inContainer := false } info.path true optional =
        .ok (second, more))
      (hname : s.names.typeName info.path = .ok name) :
      Builds s (.properties info required optional additional)
        (.struct ⟨name, info.path.text, info.description⟩ (tags ++ (first ++ second)) base
          additional)
  | union {info : Info} {tag : String} {mapping : List (String × Node)} {name : String}
      {field : Naming.FieldName} {variants : List (String × String)}
      (hfield : s.names.tagField info.path = .ok field)
      (hname : s.names.typeName info.path = .ok name) :
      Builds s (.discriminator info tag mapping)
        (.union ⟨name, info.path.text, info.description⟩ field.identifier field.key variants)

theorem filter_preorderEntries (entries : List (String × Node)) (p : Node → Bool) :
    (Node.preorderEntries entries).filter p = entries.flatMap fun e => e.2.preorder.filter p := by
  rw [Node.preorderEntries_eq, List.filter_flatMap, List.flatMap_map]

section

variable {s : Scope} {ds : List Declaration} {n : Node} {fields : List Field} {t : TypeExpr}
  {path p : Pointer} {isOptional : Bool} {entries : List (String × Node)} {names : List String}

theorem Builds.declares {d : Declaration} (h : Builds s n d) : Declares s.names n d := by
  cases h with
  | enum hname => exact .enum hname
  | struct _ _ _ _ _ hname => exact .struct hname
  | union hfield hname => exact .union hfield hname

/-- Whether a node is an item of a container does not matter for the nodes below it. -/
theorem Builds.of_container {inContainer : Bool} {d : Declaration}
    (h : Builds { s with inContainer } n d) : Builds s n d := by
  cases h with
  | enum hname => exact .enum hname
  | struct tags base htags hfirst hsecond hname =>
    exact .struct tags base htags hfirst hsecond hname
  | union hfield hname => exact .union hfield hname

/-- The first declaration of a struct may be that of a branch. -/
theorem Builds.forall₂_branch {ns : List Node} {header : Header} {base : Option String}
    {additional : Bool} {rest : List Declaration} (branch : Branch) (tagName : String)
    (base' : Option String)
    (h : List.Forall₂ (Builds s) ns (.struct header fields base additional :: rest)) :
    List.Forall₂ (Builds s) ns
      (.struct header (branch.field tagName :: fields) base' additional :: rest) := by
  obtain ⟨n, ns', hn, hrest, rfl⟩ := List.forall₂_cons_right_iff.1 h
  refine .cons ?_ hrest
  cases hn with
  | struct tags _ htags hfirst hsecond hname =>
    exact .struct (branch.field tagName :: tags) base'
      (List.forall_mem_cons.2 ⟨⟨branch, tagName, rfl⟩, htags⟩) hfirst hsecond hname

theorem builds_of_mapFields
    (hmap : mapFields { s with inContainer := false } path isOptional entries = .ok (fields, ds))
    (hentries : ∀ e ∈ entries, ∀ t ds, mapNode { s with inContainer := false } e.2 = .ok (t, ds) →
      List.Forall₂ (Builds { s with inContainer := false }) (e.2.preorder.filter Node.isNamed) ds) :
    List.Forall₂ (Builds s) ((Node.preorderEntries entries).filter Node.isNamed) ds := by
  obtain ⟨results, hresults, -, rfl⟩ := mapFields_eq_ok.1 hmap
  rw [filter_preorderEntries]
  refine forall₂_flatMap (forall₂_imp_mem hresults fun e he r _ hr => ?_)
  obtain ⟨t, name, hnode, -⟩ := hr
  exact (hentries e he t r.2 hnode).imp fun _ _ => Builds.of_container

/-- The declarations of a node are those of the nodes below it that declare a type. -/
theorem builds_of_mapNode (h : n.Sound names p) (hmap : mapNode s n = .ok (t, ds))
    (hs : s.backend.Complete) : List.Forall₂ (Builds s) (n.preorder.filter Node.isNamed) ds := by
  induction h generalizing s t ds with
  | empty | ref | type =>
    obtain ⟨null, core, hmaps, -⟩ := exists_mapsNode hmap hs
    cases hmaps
    exact .nil
  | enum =>
    obtain ⟨null, core, hmaps, -⟩ := exists_mapsNode hmap hs
    cases hmaps with
    | enum hname => exact .cons (.enum hname) .nil
  | elements _ _ ih =>
    obtain ⟨null, core, hmaps, -⟩ := exists_mapsNode hmap hs
    cases hmaps with
    | elements hitem => exact (ih hitem hs).imp fun _ _ => Builds.of_container
  | values _ _ ih =>
    obtain ⟨null, core, hmaps, -⟩ := exists_mapsNode hmap hs
    cases hmaps with
    | values hitem => exact (ih hitem hs).imp fun _ _ => Builds.of_container
  | properties _ _ _ _ ihRequired ihOptional =>
    obtain ⟨null, core, hmaps, -⟩ := exists_mapsNode hmap hs
    cases hmaps with
    | properties hfirst hsecond hname =>
      rw [Node.preorder, List.filter_cons_of_pos rfl, List.filter_append]
      refine .cons (.struct [] none (by simp) hfirst hsecond hname) (List.rel_append ?_ ?_)
      · exact builds_of_mapFields hfirst fun e he t ds hnode => ihRequired e he hnode hs
      · exact builds_of_mapFields hsecond fun e he t ds hnode => ihOptional e he hnode hs
  | discriminator _ _ _ _ ih =>
    obtain ⟨null, core, hmaps, -⟩ := exists_mapsNode hmap hs
    cases hmaps with
    | discriminator hfield hname hvariants hbranches =>
      obtain ⟨results, hresults, rfl⟩ := mapBranches_eq_ok.1 hbranches
      rw [Node.preorder, List.filter_cons_of_pos rfl, filter_preorderEntries,
        ← List.flatMap_id]
      refine .cons (.union hfield hname) (forall₂_flatMap (forall₂_imp_mem hresults ?_))
      intro e he ds' _ hbranch
      obtain ⟨tagName, null', core', header, fields, additional, rest, -, -, hbody, rfl⟩ :=
        mapBranch_eq_ok.1 hbranch
      exact Builds.forall₂_branch _ _ _ (ih e he (hbody.mapNode_eq hs) hs)

theorem Builds.formed (hn : n.Sound names p) {d : Declaration} (h : Builds s n d) (hs : s.backend.Complete) :
    ∀ t ∈ d.types, t.Formed s.backend.target (· ∈ s.names.typeNames) := by
  cases h with
  | enum | union => simp [Declaration.types]
  | struct tags base htags hfirst hsecond hname =>
    cases hn with
    | properties hpath hkeys hrequired hoptional =>
      intro t ht
      obtain ⟨f, hf, rfl⟩ := List.mem_map.1 ht
      rcases List.mem_append.1 hf with hf | hf
      · obtain ⟨branch, name, rfl⟩ := htags f hf
        exact .literal branch.value
      · rcases List.mem_append.1 hf with hf | hf
        · exact formed_of_mapFields (s := { s with inContainer := false }) hfirst hs
            (fun e he => ⟨_, hrequired e he⟩) f hf
        · exact formed_of_mapFields (s := { s with inContainer := false }) hsecond hs
            (fun e he => ⟨_, hoptional e he⟩) f hf

/-! ## Where declarations are -/

/-- A node is mapped, by itself or as a branch, to declarations that occur in order in a list. -/
def Located (backend : Backend) (names : Naming.Table) (m : Node) (ds : List Declaration) : Prop :=
  ∃ (s : Scope) (own : List Declaration), s.backend = backend ∧ s.names = names ∧ own <+ ds ∧
    ((∃ t, mapNode s m = .ok (t, own)) ∨ ∃ branch, mapBranch s branch m = .ok own)

theorem Located.mono {backend : Backend} {names : Naming.Table} {m : Node} {more : List Declaration}
    (h : Located backend names m ds) (hsub : ds <+ more) : Located backend names m more := by
  obtain ⟨s, own, hbackend, hnames, hown, hmap⟩ := h
  exact ⟨s, own, hbackend, hnames, hown.trans hsub, hmap⟩

/-- A node and the nodes below it are located where the node is mapped to, if those below are. -/
theorem located_preorder (hmap : mapNode s n = .ok (t, ds))
    (hbelow : ∀ m ∈ n.children.flatMap Node.preorder,
      Located s.backend s.names m (if n.isNamed then ds.tail else ds)) :
    ∀ m ∈ n.preorder, Located s.backend s.names m ds := by
  intro m hm
  rw [Node.preorder_eq, List.mem_cons] at hm
  rcases hm with rfl | hm
  · exact ⟨s, ds, rfl, rfl, .refl _, .inl ⟨t, hmap⟩⟩
  · refine (hbelow m hm).mono ?_
    split
    · exact List.tail_sublist ds
    · exact .refl _

theorem located_of_mapFields (hmap : mapFields s path isOptional entries = .ok (fields, ds))
    (hentries : ∀ e ∈ entries, ∀ t ds, mapNode s e.2 = .ok (t, ds) →
      ∀ m ∈ e.2.preorder, Located s.backend s.names m ds) :
    ∀ e ∈ entries, ∀ m ∈ e.2.preorder, Located s.backend s.names m ds := by
  obtain ⟨results, hresults, -, rfl⟩ := mapFields_eq_ok.1 hmap
  intro e he m hm
  obtain ⟨r, hr, t, name, hnode, -⟩ := exists_of_mem_left hresults he
  exact (hentries e he t r.2 hnode m hm).mono (List.sublist_flatten_of_mem (List.mem_map_of_mem hr))

/-- The nodes below a node are mapped to declarations behind that of the node itself. -/
theorem located_of_mapNode (h : n.Sound names p) (hmap : mapNode s n = .ok (t, ds))
    (hs : s.backend.Complete) :
    ∀ m ∈ n.children.flatMap Node.preorder,
      Located s.backend s.names m (if n.isNamed then ds.tail else ds) := by
  induction h generalizing s t ds with
  | empty | ref | type | enum => simp [Node.children]
  | elements _ _ ih =>
    obtain ⟨null, core, hmaps, -⟩ := exists_mapsNode hmap hs
    cases hmaps with
    | elements hitem =>
      intro m hm
      rw [Node.children, List.flatMap_singleton] at hm
      exact located_preorder (s := { s with inContainer := true }) hitem (ih hitem hs) m hm
  | values _ _ ih =>
    obtain ⟨null, core, hmaps, -⟩ := exists_mapsNode hmap hs
    cases hmaps with
    | values hitem =>
      intro m hm
      rw [Node.children, List.flatMap_singleton] at hm
      exact located_preorder (s := { s with inContainer := true }) hitem (ih hitem hs) m hm
  | properties _ _ _ _ ihRequired ihOptional =>
    obtain ⟨null, core, hmaps, -⟩ := exists_mapsNode hmap hs
    cases hmaps with
    | properties hfirst hsecond hname =>
      intro m hm
      have hrequired := located_of_mapFields hfirst fun e he t ds hnode =>
        located_preorder hnode (ihRequired e he hnode hs)
      have hoptional := located_of_mapFields hsecond fun e he t ds hnode =>
        located_preorder hnode (ihOptional e he hnode hs)
      rw [Node.children, List.flatMap_append, List.mem_append, ← Node.preorderEntries_eq,
        ← Node.preorderEntries_eq, Node.mem_preorderEntries, Node.mem_preorderEntries] at hm
      rcases hm with ⟨e, he, hm⟩ | ⟨e, he, hm⟩
      · exact (hrequired e he m hm).mono (List.sublist_append_left _ _)
      · exact (hoptional e he m hm).mono (List.sublist_append_right _ _)
  | discriminator _ _ _ _ ih =>
    obtain ⟨null, core, hmaps, -⟩ := exists_mapsNode hmap hs
    cases hmaps with
    | discriminator hfield hname hvariants hbranches =>
      obtain ⟨results, hresults, rfl⟩ := mapBranches_eq_ok.1 hbranches
      intro m hm
      rw [Node.children, ← Node.preorderEntries_eq, Node.mem_preorderEntries] at hm
      obtain ⟨e, he, hm⟩ := hm
      obtain ⟨ds', hds', hbranch⟩ := exists_of_mem_left hresults he
      refine Located.mono ?_ (List.sublist_flatten_of_mem hds')
      rw [Node.preorder_eq, List.mem_cons] at hm
      rcases hm with rfl | hm
      · exact ⟨s, ds', rfl, rfl, .refl _, .inr ⟨_, hbranch⟩⟩
      · obtain ⟨tagName, null', core', header, fields, additional, rest, hform, -, hbody, rfl⟩ :=
          mapBranch_eq_ok.1 hbranch
        have hlocated := ih e he (hbody.mapNode_eq hs) hs m hm
        rw [Node.isNamed, hform] at hlocated
        exact hlocated.mono (List.sublist_cons_self _ _)

end

/-! ## Branches -/

section

variable {s : Scope}

theorem isTag_of_mapFields {path : Pointer} {isOptional : Bool} {entries : List (String × Node)}
    {fields : List Field} {ds : List Declaration}
    (h : mapFields s path isOptional entries = .ok (fields, ds)) :
    ∀ f ∈ fields, f.isTag = false := by
  obtain ⟨results, hresults, rfl, -⟩ := mapFields_eq_ok.1 h
  intro f hf
  obtain ⟨r, hr, rfl⟩ := List.mem_map.1 hf
  obtain ⟨e, -, t, name, -, -, hfield⟩ := exists_of_mem_right hresults hr
  rw [hfield]

/-- A branch is declared as a struct whose first field is the tag and whose other fields are not. -/
theorem exists_struct_of_mapBranch {branch : Branch} {n : Node} {ds : List Declaration}
    {field : Naming.FieldName} {name : String} (h : mapBranch s branch n = .ok ds)
    (hfield : s.names.fieldName n.path branch.tag = .ok field)
    (hname : s.names.typeName n.path = .ok name) :
    ∃ header fields additional, .struct header (branch.field field.identifier :: fields)
      (some branch.union) additional ∈ ds ∧ header.name = name ∧ ∀ f ∈ fields, f.isTag = false := by
  obtain ⟨tagName, null, core, header, fields, additional, rest, hform, htag, hmaps, rfl⟩ :=
    mapBranch_eq_ok.1 h
  obtain rfl := Except.ok.inj (hfield.symm.trans htag)
  refine ⟨header, fields, additional, List.mem_cons_self, ?_⟩
  cases hmaps with
  | properties hfirst hsecond hname' =>
    refine ⟨Except.ok.inj (hname'.symm.trans hname), fun f hf => ?_⟩
    exact (List.mem_append.1 hf).elim (isTag_of_mapFields hfirst f) (isTag_of_mapFields hsecond f)
  | _ => cases hform

end

/-! ## Bodies -/

/-- A node is the body of a definition, or the root. -/
def Owns (schema : Schema) : Option String → Node → Prop
  | some name, body => (name, body) ∈ schema.definitions
  | none, body => body = schema.root

theorem Owns.mem_walk {schema : Schema} {owner : Option String} {body n : Node}
    (h : Owns schema owner body) (hn : n ∈ body.preorder) : n ∈ schema.walk := by
  rw [Schema.walk_eq_append, List.mem_append, List.mem_flatMap]
  cases owner with
  | some name => exact .inl ⟨body, List.mem_map.2 ⟨_, h, rfl⟩, hn⟩
  | none =>
    obtain rfl : body = schema.root := h
    exact .inr hn

theorem mem_aliasOf {id : String} {body : Node} {t : TypeExpr} {d : Declaration} :
    d ∈ aliasOf id body t ↔
      body.isNamed = false ∧ d = .synonym ⟨id, body.path.text, body.description⟩ t := by
  rw [aliasOf]
  cases body.isNamed <;> simp

/-- The declarations of a body under an identifier: those of its nodes and perhaps an alias. -/
def MapsBody (backend : Backend) (names : Naming.Table) (schema : Schema) (b : Node × String)
    (ds : List Declaration) : Prop :=
  ∃ (s : Scope) (null : Bool) (core t : TypeExpr) (inner : List Declaration),
    s.backend = backend ∧ s.names = names ∧ s.schema = schema ∧ MapsNode s b.1 null core inner ∧
    (t = core ∨ t = core.nullIf null) ∧ ds = inner ++ aliasOf b.2 b.1 t

/-- The bodies of a schema with their identifiers: the definitions in order, then the root. -/
def bodies (names : Naming.Table) (schema : Schema) : List (Node × String) :=
  (schema.definitions.map Prod.snd ++ [schema.root]).zip
    (names.definitions.map Prod.snd ++ [names.root])

section

variable {backend : Backend} {names : Naming.Table} {schema : Schema} {graph : ReferenceGraph}
  {m : Mapped}

theorem length_definitions (hsuits : names.Suits schema) :
    schema.definitions.length = names.definitions.length := by
  simpa [Schema.names] using congrArg List.length hsuits.definitions.symm

theorem map_fst_bodies (hsuits : names.Suits schema) :
    (bodies names schema).map Prod.fst = schema.definitions.map Prod.snd ++ [schema.root] := by
  rw [bodies, List.map_fst_zip]
  simp [length_definitions hsuits]

theorem bodies_eq (hsuits : names.Suits schema) :
    bodies names schema = (schema.definitions.map Prod.snd).zip (names.definitions.map Prod.snd) ++
      [(schema.root, names.root)] := by
  rw [bodies, List.zip_append (by simp [length_definitions hsuits])]
  rfl

theorem root_mem_bodies (hsuits : names.Suits schema) :
    (schema.root, names.root) ∈ bodies names schema := by
  rw [bodies_eq hsuits]
  exact List.mem_append_right _ List.mem_cons_self

theorem definition_of_suits (hsound : schema.Sound) (hsuits : names.Suits schema) :
    List.Forall₂ (fun e i => names.definition e.1 = .ok i.2) schema.definitions
      names.definitions := by
  refine forall₂_imp_mem hsuits.own fun e _ i hi hown => ?_
  rw [Naming.Table.definition_eq_ok (hsuits.definitions ▸ hsound.nodup_names), ← hown.1]
  exact hi

theorem walk_filter_eq (hsuits : names.Suits schema) (p : Node → Bool) :
    schema.walk.filter p = (bodies names schema).flatMap fun b => b.1.preorder.filter p := by
  rw [Schema.walk, Schema.visit_eq_flatMap, ← map_fst_bodies hsuits, List.filter_flatMap,
    List.flatMap_map]

variable {b : Node × String} {n : Node}

theorem sound_of_mem_bodies (hsound : schema.Sound) (hsuits : names.Suits schema)
    (hb : b ∈ bodies names schema) : ∃ p, b.1.Sound schema.names p := by
  have hmem : b.1 ∈ (bodies names schema).map Prod.fst := List.mem_map_of_mem hb
  rw [map_fst_bodies hsuits, List.mem_append, List.mem_singleton] at hmem
  rcases hmem with hmem | hmem
  · obtain ⟨e, he, heq⟩ := List.mem_map.1 hmem
    exact ⟨_, heq ▸ hsound.definitions e he⟩
  · exact ⟨_, hmem ▸ hsound.root⟩

theorem mem_walk_of_mem_bodies (hsuits : names.Suits schema) (hb : b ∈ bodies names schema)
    (hn : n ∈ b.1.preorder) : n ∈ schema.walk := by
  rw [Schema.walk, Schema.visit_eq_flatMap, ← map_fst_bodies hsuits]
  exact List.mem_flatMap.2 ⟨b.1, List.mem_map_of_mem hb, hn⟩

theorem exists_body_of_mem_walk (hsuits : names.Suits schema) (hn : n ∈ schema.walk) :
    ∃ b ∈ bodies names schema, n ∈ b.1.preorder := by
  rw [Schema.walk, Schema.visit_eq_flatMap, ← map_fst_bodies hsuits] at hn
  obtain ⟨body, hbody, hn⟩ := List.mem_flatMap.1 hn
  obtain ⟨b, hb, rfl⟩ := List.mem_map.1 hbody
  exact ⟨b, hb, hn⟩

theorem own_of_mem_bodies (hsound : schema.Sound) (hsuits : names.Suits schema)
    (hb : b ∈ bodies names schema) (hnamed : b.1.isNamed = true) :
    names.typeName b.1.path = .ok b.2 := by
  rw [Naming.Table.typeName_eq_ok (hsuits.nodup_nodes hsound)]
  rw [bodies_eq hsuits, List.mem_append, List.mem_singleton, List.zip_map] at hb
  rcases hb with hb | rfl
  · obtain ⟨⟨e, i⟩, hmem, rfl⟩ := List.mem_map.1 hb
    exact ((List.forall₂_iff_zip.1 hsuits.own).2 hmem).2 hnamed
  · exact hsuits.ownRoot hnamed

theorem exists_body_of_definition (hsound : schema.Sound) (hsuits : names.Suits schema)
    {name : String} {body : Node} (hbody : (name, body) ∈ schema.definitions) :
    ∃ id, names.definition name = .ok id ∧ (body, id) ∈ bodies names schema := by
  obtain ⟨i, hmem, hid⟩ := exists_mem_zip (definition_of_suits hsound hsuits) hbody
  refine ⟨i.2, hid, ?_⟩
  rw [bodies_eq hsuits, List.zip_map]
  exact List.mem_append_left _ (List.mem_map.2 ⟨_, hmem, rfl⟩)

theorem not_isAlias_of_declares {ns : List Node} {ds : List Declaration}
    (h : List.Forall₂ (Declares names) ns ds) : ∀ d ∈ ds, d.isAlias = false := by
  intro d hd
  obtain ⟨n, -, hn⟩ := exists_of_mem_right h hd
  exact hn.not_isAlias

theorem MapsBody.declares {ds : List Declaration} (h : MapsBody backend names schema b ds)
    (hbackend : backend.Complete) {p : Pointer} (hb : b.1.Sound schema.names p) :
    ∃ inner t, List.Forall₂ (Declares names) (b.1.preorder.filter Node.isNamed) inner ∧
      ds = inner ++ aliasOf b.2 b.1 t := by
  obtain ⟨s, null, core, t, inner, rfl, rfl, rfl, hmaps, -, rfl⟩ := h
  have hbuilds := builds_of_mapNode hb (hmaps.mapNode_eq hbackend) hbackend
  exact ⟨inner, t, hbuilds.imp fun _ _ => Builds.declares, rfl⟩

theorem filter_eq_flatMap {α : Type} (p : α → Bool) (xs : List α) :
    xs.filter p = xs.flatMap fun x => if p x then [x] else [] := by
  induction xs with
  | nil => rfl
  | cons x xs ih =>
    rw [List.filter_cons, List.flatMap_cons, ← ih]
    split <;> rfl

theorem perm_declarations (ds : List Declaration) :
    ds.Perm ((ds.filter fun d => !d.isAlias) ++ ds.filter Declaration.isAlias) :=
  ((List.perm_append_comm).trans (List.filter_append_perm Declaration.isAlias ds)).symm

theorem nodup_declared_paths (hsound : schema.Sound) :
    ((schema.walk.filter Node.isNamed).map (·.path.text) ++
      ((schema.definitions.map Prod.snd ++ [schema.root]).filter fun b => !b.isNamed).map
        (·.path.text)).Nodup := by
  have hpaths := hsound.nodup_walk_paths
  have hsub : schema.definitions.map Prod.snd ++ [schema.root] <+ schema.walk := by
    rw [Schema.walk, Schema.visit_eq_flatMap]
    exact Node.sublist_flatMap_preorder _
  rw [← List.map_append]
  refine List.Nodup.map_on (fun n hn n' hn' heq => ?_) ?_
  · have hmem : ∀ n ∈ schema.walk.filter Node.isNamed ++
        (schema.definitions.map Prod.snd ++ [schema.root]).filter (fun b => !b.isNamed),
        n ∈ schema.walk := fun n hn =>
      (List.mem_append.1 hn).elim List.mem_of_mem_filter
        fun hn => hsub.subset (List.mem_of_mem_filter hn)
    exact List.inj_on_of_nodup_map hpaths (hmem n hn) (hmem n' hn') (Pointer.text_injective heq)
  · have hwalk := List.Nodup.of_map _ hpaths
    rw [List.nodup_append']
    refine ⟨hwalk.filter _, (hsub.nodup hwalk).filter _, fun n hn hn' => ?_⟩
    have hnamed := List.of_mem_filter hn
    have hother := List.of_mem_filter hn'
    simp [hnamed] at hother

/-! ## The declarations of a schema -/

/-- Every declaration is built from a node of some body, or is the alias of the body: a name for the
type of a definition without null, or for the type of the root. -/
theorem builds_of_mapSchema (hbackend : backend.Complete) (hsound : schema.Sound)
    (h : mapSchema backend names schema graph = .ok m) {d : Declaration}
    (hd : d ∈ m.declarations) : ∃ owner body, Owns schema owner body ∧
      ((∃ n ∈ body.preorder, Builds { backend, names, schema, graph, owner } n d) ∨
        ∃ null core inner id t, body.isNamed = false ∧
          MapsNode { backend, names, schema, graph, owner } body null core inner ∧
          d = .synonym ⟨id, body.path.text, body.description⟩ t ∧
          (t = core ∧ owner.isSome = true ∨
            t = core.nullIf null ∧ t = m.rootType ∧ owner = none)) := by
  have hnode : ∀ {owner p body null core inner}, body.Sound schema.names p →
      MapsNode { backend, names, schema, graph, owner } body null core inner → d ∈ inner →
      ∃ n ∈ body.preorder, Builds { backend, names, schema, graph, owner } n d := by
    intro owner p body null core inner hbody hmaps hd
    obtain ⟨n, hn, hbuilds⟩ := exists_of_mem_right
      (builds_of_mapNode hbody (hmaps.mapNode_eq hbackend) hbackend) hd
    exact ⟨n, List.mem_of_mem_filter hn, hbuilds⟩
  obtain ⟨dss, t, rest, hdss, hroot, rfl⟩ := mapSchema_eq_ok.1 h
  rcases List.mem_append.1 hd with hd | hd
  · obtain ⟨ds, hds, hd⟩ := List.mem_flatten.1 hd
    obtain ⟨e, he, hmap⟩ := exists_of_mem_right hdss hds
    obtain ⟨null, core, inner, id, hmaps, -, rfl⟩ := (mapDefinition_eq_ok hbackend).1 hmap
    refine ⟨some e.1, e.2, he, ?_⟩
    rcases List.mem_append.1 hd with hd | hd
    · exact .inl (hnode (hsound.definitions e he) hmaps hd)
    · obtain ⟨hnamed, rfl⟩ := mem_aliasOf.1 hd
      exact .inr ⟨null, core, inner, id, core, hnamed, hmaps, rfl, .inl ⟨rfl, rfl⟩⟩
  · obtain ⟨inner, hmap, rfl⟩ := mapRoot_eq_ok.1 hroot
    obtain ⟨null, core, hmaps, rfl⟩ := exists_mapsNode hmap hbackend
    refine ⟨none, schema.root, rfl, ?_⟩
    rcases List.mem_append.1 hd with hd | hd
    · exact .inl (hnode hsound.root hmaps hd)
    · obtain ⟨hnamed, rfl⟩ := mem_aliasOf.1 hd
      exact .inr ⟨null, core, inner, _, _, hnamed, hmaps, rfl, .inr ⟨rfl, rfl, rfl⟩⟩

/-- All expressions of a mapped schema are formed from the types in the table. -/
theorem formed_of_mapSchema (hbackend : backend.Complete) (hsound : schema.Sound)
    (h : mapSchema backend names schema graph = .ok m) :
    ∀ t ∈ Declaration.walkTypes m.declarations ++ m.rootType.walk,
      t.Formed backend.target (· ∈ names.typeNames) := by
  have hroot : m.rootType.Formed backend.target (· ∈ names.typeNames) := by
    obtain ⟨dss, t, rest, -, hroot, rfl⟩ := mapSchema_eq_ok.1 h
    obtain ⟨inner, hnode, -⟩ := mapRoot_eq_ok.1 hroot
    obtain ⟨null, core, hmaps, rfl⟩ := exists_mapsNode hnode hbackend
    exact (formed_of_mapsNode hsound.root hmaps hbackend).nullIf null
  intro t ht
  rcases List.mem_append.1 ht with ht | ht
  · obtain ⟨d, hd, ht⟩ := List.mem_flatMap.1 ht
    obtain ⟨t', ht', ht⟩ := List.mem_flatMap.1 ht
    refine TypeExpr.Formed.of_mem_walk ?_ t ht
    obtain ⟨owner, body, howns, ⟨n, hn, hbuilds⟩ | halias⟩ :=
      builds_of_mapSchema hbackend hsound h hd
    · exact hbuilds.formed (hsound.of_mem_walk (howns.mem_walk hn)) hbackend t' ht'
    · obtain ⟨null, core, inner, id, t'', -, hmaps, rfl, htarget⟩ := halias
      rw [List.mem_singleton.1 ht']
      rcases htarget with ⟨rfl, howner⟩ | ⟨-, rfl, -⟩
      · obtain ⟨name, rfl⟩ := Option.isSome_iff_exists.1 howner
        exact formed_of_mapsNode (hsound.definitions _ howns) hmaps hbackend
      · exact hroot
  · exact hroot.of_mem_walk t ht

section

variable (hbackend : backend.Complete) (hsound : schema.Sound) (hsuits : names.Suits schema)
  (h : mapSchema backend names schema graph = .ok m)
include hbackend hsound hsuits h

theorem mapsBody_of_mapSchema :
    ∃ dss, List.Forall₂ (MapsBody backend names schema) (bodies names schema) dss ∧
      m.declarations = dss.flatten := by
  obtain ⟨dss, t, rest, hdss, hroot, rfl⟩ := mapSchema_eq_ok.1 h
  obtain ⟨inner, hnode, rfl⟩ := mapRoot_eq_ok.1 hroot
  obtain ⟨null, core, hmaps, rfl⟩ := exists_mapsNode hnode hbackend
  refine ⟨dss ++ [inner ++ aliasOf names.root schema.root (core.nullIf null)], ?_, by simp⟩
  rw [bodies_eq hsuits]
  refine List.rel_append ?_ (.cons ⟨_, null, core, _, inner, rfl, rfl, rfl, hmaps, .inr rfl, rfl⟩
    .nil)
  rw [List.zip_map, List.forall₂_map_left_iff]
  refine (forall₂_zip (definition_of_suits hsound hsuits) hdss).imp fun ⟨e, i⟩ ds ⟨hi, hds⟩ => ?_
  obtain ⟨null, core, inner, id, hmaps, hid, rfl⟩ := (mapDefinition_eq_ok hbackend).1 hds
  refine ⟨_, null, core, core, inner, rfl, rfl, rfl, hmaps, .inl rfl, ?_⟩
  cases hnamed : e.2.isNamed with
  | true => simp [aliasOf, hnamed]
  | false =>
    obtain rfl := Except.ok.inj (hi.symm.trans (hid hnamed))
    rfl

/-- The declarations other than aliases are those of the nodes that declare a type. -/
theorem declares_of_mapSchema :
    List.Forall₂ (Declares names) (schema.walk.filter Node.isNamed)
      (m.declarations.filter fun d => !d.isAlias) := by
  obtain ⟨dss, hdss, heq⟩ := mapsBody_of_mapSchema hbackend hsound hsuits h
  rw [walk_filter_eq hsuits, heq, ← List.flatMap_id, List.filter_flatMap]
  refine forall₂_flatMap (forall₂_imp_mem hdss fun b hb ds _ hds => ?_)
  obtain ⟨p, hp⟩ := sound_of_mem_bodies hsound hsuits hb
  obtain ⟨inner, t, hinner, rfl⟩ := hds.declares hbackend hp
  have halias : (aliasOf b.2 b.1 t).filter (fun d => !d.isAlias) = [] := by
    unfold aliasOf
    split <;> rfl
  have hkeep : inner.filter (fun d => !d.isAlias) = inner := by
    rw [List.filter_eq_self]
    exact fun d hd => by simp [not_isAlias_of_declares hinner d hd]
  rw [id, List.filter_append, halias, hkeep, List.append_nil]
  exact hinner

/-- The aliases are the definitions and the root that declare no type. -/
theorem aliases_of_mapSchema :
    List.Forall₂ (fun b d => d.header.path = b.1.path.text ∧ d.name = b.2)
      ((bodies names schema).filter fun b => !b.1.isNamed)
      (m.declarations.filter Declaration.isAlias) := by
  obtain ⟨dss, hdss, heq⟩ := mapsBody_of_mapSchema hbackend hsound hsuits h
  rw [filter_eq_flatMap, heq, ← List.flatMap_id, List.filter_flatMap]
  refine forall₂_flatMap (forall₂_imp_mem hdss fun b hb ds _ hds => ?_)
  obtain ⟨p, hp⟩ := sound_of_mem_bodies hsound hsuits hb
  obtain ⟨inner, t, hinner, rfl⟩ := hds.declares hbackend hp
  have hdrop : inner.filter Declaration.isAlias = [] := by
    rw [List.filter_eq_nil_iff]
    exact fun d hd => by simp [not_isAlias_of_declares hinner d hd]
  rw [id, List.filter_append, hdrop, List.nil_append, aliasOf]
  cases b.1.isNamed with
  | true => exact .nil
  | false => exact .cons ⟨rfl, rfl⟩ .nil

theorem map_path_declarations :
    (m.declarations.filter fun d => !d.isAlias).map (·.header.path) =
        (schema.walk.filter Node.isNamed).map (·.path.text) ∧
      (m.declarations.filter Declaration.isAlias).map (·.header.path) =
        ((schema.definitions.map Prod.snd ++ [schema.root]).filter fun b => !b.isNamed).map
          (·.path.text) := by
  refine ⟨map_eq_of_forall₂ (declares_of_mapSchema hbackend hsound hsuits h)
    fun n d hd => hd.path_eq, ?_⟩
  rw [map_eq_of_forall₂ (aliases_of_mapSchema hbackend hsound hsuits h) fun b d hd => hd.1,
    ← map_fst_bodies hsuits, List.filter_map, List.map_map]
  rfl

theorem map_name_declarations :
    (m.declarations.filter fun d => !d.isAlias).map (·.name) =
        names.nodes.map (fun e => e.2.type) ∧
      (m.declarations.filter Declaration.isAlias).map (·.name) = names.aliases schema := by
  have hnodes := hsuits.nodup_nodes hsound
  constructor
  · have hok : Function.Injective (Except.ok : String → Except Failure String) :=
      fun a b h => Except.ok.inj h
    refine List.map_injective_iff.2 hok ?_
    calc
      _ = (m.declarations.filter fun d => !d.isAlias).map fun d => .ok d.name := List.map_map
      _ = (schema.walk.filter Node.isNamed).map fun n => names.typeName n.path :=
        map_eq_of_forall₂ (declares_of_mapSchema hbackend hsound hsuits h)
          fun n d hd => hd.typeName.symm
      _ = (names.nodes.map Prod.fst).map names.typeName := by
        rw [hsuits.nodes, List.map_map]
        rfl
      _ = names.nodes.map fun e => .ok e.2.type := by
        rw [List.map_map]
        exact List.map_congr_left fun e he =>
          (Naming.Table.typeName_eq_ok hnodes).2 ⟨e.2, he, rfl⟩
      _ = _ := List.map_map.symm
  · rw [map_eq_of_forall₂ (aliases_of_mapSchema hbackend hsound hsuits h) fun b d hd => hd.2]
    rfl

theorem nodup_paths_of_mapSchema :
    (m.declarations.map (·.header.path)).Nodup := by
  obtain ⟨hothers, haliases⟩ := map_path_declarations hbackend hsound hsuits h
  rw [((perm_declarations m.declarations).map _).nodup_iff, List.map_append, hothers, haliases]
  exact nodup_declared_paths hsound

/-- Every definition and the root are declared under their identifiers. -/
theorem exists_declaration_of_body
    (hb : b ∈ bodies names schema) :
    ∃ d ∈ m.declarations, d.header.path = b.1.path.text ∧ d.name = b.2 := by
  cases hnamed : b.1.isNamed with
  | true =>
    have hwalk := mem_walk_of_mem_bodies hsuits hb (Node.mem_preorder_self b.1)
    obtain ⟨d, hd, hdeclares⟩ := exists_of_mem_left
      (declares_of_mapSchema hbackend hsound hsuits h) (List.mem_filter.2 ⟨hwalk, hnamed⟩)
    have hname := hdeclares.typeName.symm.trans (own_of_mem_bodies hsound hsuits hb hnamed)
    exact ⟨d, List.mem_of_mem_filter hd, hdeclares.path_eq, Except.ok.inj hname⟩
  | false =>
    obtain ⟨d, hd, hpath, hname⟩ := exists_of_mem_left
      (aliases_of_mapSchema hbackend hsound hsuits h) (List.mem_filter.2 ⟨hb, by simp [hnamed]⟩)
    exact ⟨d, List.mem_of_mem_filter hd, hpath, hname⟩

/-- Every name in the table is declared. -/
theorem exists_declaration_of_mem_typeNames {id : String} (hid : id ∈ names.typeNames) :
    ∃ d ∈ m.declarations, d.name = id := by
  rw [Naming.Table.typeNames, List.mem_cons, List.mem_append] at hid
  rcases hid with rfl | hid | hid
  · obtain ⟨d, hd, -, hname⟩ := exists_declaration_of_body hbackend hsound hsuits h
      (root_mem_bodies hsuits)
    exact ⟨d, hd, hname⟩
  · obtain ⟨i, hi, rfl⟩ := List.mem_map.1 hid
    obtain ⟨e, he, hown⟩ := exists_of_mem_right (definition_of_suits hsound hsuits) hi
    obtain ⟨id, hid, hb⟩ := exists_body_of_definition hsound hsuits he
    obtain ⟨d, hd, -, hname⟩ := exists_declaration_of_body hbackend hsound hsuits h hb
    exact ⟨d, hd, hname.trans (Except.ok.inj (hid.symm.trans hown))⟩
  · have hids : names.types.map Prod.snd =
        (m.declarations.filter fun d => !d.isAlias).map (·.name) := by
      rw [(map_name_declarations hbackend hsound hsuits h).1, Naming.Table.types_eq, List.map_map]
      rfl
    rw [hids] at hid
    obtain ⟨d, hd, hname⟩ := List.mem_map.1 hid
    exact ⟨d, List.mem_of_mem_filter hd, hname⟩

/-- Every type that a declaration or the root type mentions is declared. -/
theorem mentions_of_mapSchema :
    m.rootType.Mentions (fun name => ∃ d ∈ m.declarations, d.name = name) ∧
      ∀ d ∈ m.declarations, d.Mentions fun name => ∃ d ∈ m.declarations, d.name = name := by
  have hdeclared : ∀ e ∈ Declaration.walkTypes m.declarations ++ m.rootType.walk, e.kind = .named →
      ∃ d ∈ m.declarations, d.name = e.name := by
    intro e he hkind
    exact exists_declaration_of_mem_typeNames hbackend hsound hsuits h
      ((formed_of_mapSchema hbackend hsound h e he).of_kind_named hkind).1
  refine ⟨fun e he => hdeclared e (List.mem_append_right _ he), fun d hd t ht e he => ?_⟩
  exact hdeclared e (List.mem_append_left _
    (List.mem_flatMap.2 ⟨d, hd, List.mem_flatMap.2 ⟨t, ht, he⟩⟩))

theorem located_of_mapSchema
    (hn : n ∈ schema.walk) : Located backend names n m.declarations := by
  obtain ⟨dss, hdss, heq⟩ := mapsBody_of_mapSchema hbackend hsound hsuits h
  obtain ⟨b, hb, hbelow⟩ := exists_body_of_mem_walk hsuits hn
  obtain ⟨ds, hds, s, null, core, t, inner, rfl, rfl, rfl, hmaps, -, rfl⟩ :=
    exists_of_mem_left hdss hb
  obtain ⟨p, hp⟩ := sound_of_mem_bodies hsound hsuits hb
  have hnode := hmaps.mapNode_eq hbackend
  have hinner := located_preorder hnode (located_of_mapNode hp hnode hbackend) n hbelow
  rw [heq]
  exact hinner.mono ((List.sublist_append_left _ _).trans (List.sublist_flatten_of_mem hds))

/-- Behind every union come its branches, one for each value of its tag. -/
theorem branches_of_mapSchema
    {header : Header} {tagName tagWire : String} {variants : List (String × String)}
    (hunion : .union header tagName tagWire variants ∈ m.declarations) :
    ∃ info mapping, .discriminator info tagWire mapping ∈ schema.walk ∧
      header.path = info.path.text ∧ variants.map Prod.fst = mapping.map Prod.fst ∧
      ∀ v ∈ variants, ∃ header' fields additional,
        [.union header tagName tagWire variants,
          .struct header' (Branch.field ⟨header.name, tagWire, v.1⟩ tagName :: fields)
            (some header.name) additional] <+ m.declarations ∧
        header'.name = v.2 ∧ ∀ f ∈ fields, f.isTag = false := by
  have hnodes := hsuits.nodup_nodes hsound
  obtain ⟨n, hn, hdeclares⟩ := exists_of_mem_right (declares_of_mapSchema hbackend hsound hsuits h)
    (List.mem_filter.2 ⟨hunion, rfl⟩)
  have hwalk := List.mem_of_mem_filter hn
  cases hdeclares with
  | @union info tag mapping name field variants' hfield hname =>
    obtain ⟨type, field', hentry, rfl, hstructs⟩ := hsuits.covers _ hwalk
    obtain rfl := Except.ok.inj (hfield.symm.trans
      ((Naming.Table.tagField_eq_ok hnodes).2 ⟨type, hentry⟩))
    refine ⟨info, mapping, hwalk, rfl, ?_⟩
    obtain ⟨s, own, rfl, rfl, hown, hmap⟩ := located_of_mapSchema hbackend hsound hsuits h hwalk
    rcases hmap with ⟨t, hmap⟩ | ⟨branch, hmap⟩
    · obtain ⟨null, core, hmaps, -⟩ := exists_mapsNode hmap hbackend
      cases hmaps with
      | @discriminator _ _ _ name' field' variants'' ds hfield' hname' hvariants hbranches =>
        obtain rfl := Except.ok.inj (hfield.symm.trans hfield')
        obtain rfl := Except.ok.inj (hname.symm.trans hname')
        -- The union is the only declaration at its place.
        have heq := List.inj_on_of_nodup_map (nodup_paths_of_mapSchema hbackend hsound hsuits h)
          hunion (hown.subset List.mem_cons_self) rfl
        cases heq
        refine ⟨map_fst_of_forall₂ hvariants, fun v hv => ?_⟩
        obtain ⟨e, he, hvalue, htype⟩ := exists_of_mem_right hvariants hv
        obtain ⟨results, hresults, rfl⟩ := mapBranches_eq_ok.1 hbranches
        obtain ⟨ds', hds', hbranch⟩ := exists_of_mem_left hresults he
        obtain ⟨_, _, _, _, _, _, _, hform, -⟩ := mapBranch_eq_ok.1 hbranch
        obtain ⟨type', rest, hentry'⟩ := hstructs e he hform
        have htag : s.names.fieldName e.2.path field.key = .ok field :=
          (Naming.Table.fieldName_eq_ok hnodes).2 ⟨type', _, hentry', by simp⟩
        obtain ⟨header', fields, additional, hmem, hname', hfields⟩ :=
          exists_struct_of_mapBranch hbranch htag htype
        refine ⟨header', fields, additional, ?_, hname', hfields⟩
        rw [← hvalue] at hmem
        refine (List.Sublist.cons_cons _ (List.singleton_sublist.2 ?_)).trans hown
        exact List.mem_flatten.2 ⟨ds', hds', hmem⟩
    · obtain ⟨_, _, _, _, _, _, _, hform, -⟩ := mapBranch_eq_ok.1 hmap
      cases hform

end

theorem nodup_names_of_mapSchema {rules : Naming.Rules} {rootName : Json}
    (hbackend : backend.Complete) (hsound : schema.Sound)
    (hassign : Naming.assign rules schema rootName = .ok names)
    (h : mapSchema backend names schema graph = .ok m) : (m.declarations.map (·.name)).Nodup := by
  have hsuits := Naming.Table.suits_of_assign hassign
  obtain ⟨hothers, haliases⟩ := map_name_declarations hbackend hsound hsuits h
  rw [((perm_declarations m.declarations).map _).nodup_iff, List.map_append, hothers, haliases]
  exact Naming.Table.nodup_declared hsound hassign

end

/-- The declarations of a run.  Every node that declares a type is declared exactly once, in the
order in which nodes are visited, and so is, as an alias, every definition and root that declares no
type.  No two declarations share a name, and definitions and root are declared under theirs.  Every
type that is mentioned is declared.  A union lists its branches in order, and each of them is the
only declaration with its name, comes behind the union, has the union as its base and the tag as the
first and only tag among its fields. -/
theorem declarations_of_run {document : Json} {schema : Schema} {rules : Naming.Rules}
    {rootName : Json} {names : Naming.Table} (hdistinct : document.Distinct)
    (hresolve : Schema.resolve document = .ok schema)
    (hassign : Naming.assign rules schema rootName = .ok names) (target : Target)
    (graph : ReferenceGraph) :
    ∃ m, mapSchema { target.backend with rules := rules } names schema graph = .ok m ∧
      (m.declarations.filter fun d => !d.isAlias).map (·.header.path) =
        (schema.walk.filter Node.isNamed).map (·.path.text) ∧
      (m.declarations.filter Declaration.isAlias).map (·.header.path) =
        ((schema.definitions.map Prod.snd ++ [schema.root]).filter fun b => !b.isNamed).map
          (·.path.text) ∧
      (m.declarations.map (·.header.path)).Nodup ∧
      (m.declarations.map (·.name)).Nodup ∧
      (∀ name body, schema.definition? name = some body → ∃ d ∈ m.declarations,
        d.header.path = body.path.text ∧ names.definition name = .ok d.name) ∧
      (∃ d ∈ m.declarations, d.header.path = schema.root.path.text ∧ d.name = names.root) ∧
      (∀ t ∈ Declaration.walkTypes m.declarations ++ m.rootType.walk, t.kind = .named →
        ∃ d ∈ m.declarations, d.name = t.name) ∧
      ∀ header tagName tagWire variants, .union header tagName tagWire variants ∈ m.declarations →
        ∃ info mapping, .discriminator info tagWire mapping ∈ schema.walk ∧
          header.path = info.path.text ∧ variants.map Prod.fst = mapping.map Prod.fst ∧
          ∀ v ∈ variants, ∃ header' tag fields additional,
            [.union header tagName tagWire variants,
              .struct header' (tag :: fields) (some header.name) additional] <+ m.declarations ∧
            header'.name = v.2 ∧
            (∀ d ∈ m.declarations, d.name = v.2 →
              d = .struct header' (tag :: fields) (some header.name) additional) ∧
            tag.isTag = true ∧ tag.name = tagName ∧ tag.wire = tagWire ∧
            tag.tagValue = some v.1 ∧ ∀ f ∈ fields, f.isTag = false := by
  have hsound := Schema.sound_of_resolve hdistinct hresolve
  have hsuits := Naming.Table.suits_of_assign hassign
  have hbackend := target.complete_backend rules
  obtain ⟨m, h⟩ := exists_mapSchema hbackend hsound hsuits graph
  obtain ⟨hothers, haliases⟩ := map_path_declarations hbackend hsound hsuits h
  have hnodup := nodup_names_of_mapSchema hbackend hsound hassign h
  refine ⟨m, h, hothers, haliases, nodup_paths_of_mapSchema hbackend hsound hsuits h, hnodup,
    ?_, ?_, ?_, ?_⟩
  · intro name body hbody
    obtain ⟨id, hid, hb⟩ := exists_body_of_definition hsound hsuits (mem_of_lookup hbody)
    obtain ⟨d, hd, hpath, rfl⟩ := exists_declaration_of_body hbackend hsound hsuits h hb
    exact ⟨d, hd, hpath, hid⟩
  · refine exists_declaration_of_body hbackend hsound hsuits h (b := (schema.root, names.root)) ?_
    rw [bodies_eq hsuits]
    exact List.mem_append_right _ List.mem_cons_self
  · intro t ht hkind
    obtain ⟨hroot, hall⟩ := mentions_of_mapSchema hbackend hsound hsuits h
    rcases List.mem_append.1 ht with ht | ht
    · obtain ⟨d, hd, ht⟩ := List.mem_flatMap.1 ht
      obtain ⟨t', ht', ht⟩ := List.mem_flatMap.1 ht
      exact hall d hd t' ht' t ht hkind
    · exact hroot t ht hkind
  · intro header tagName tagWire variants hunion
    obtain ⟨info, mapping, hwalk, hpath, hkeys, hbranches⟩ :=
      branches_of_mapSchema hbackend hsound hsuits h hunion
    refine ⟨info, mapping, hwalk, hpath, hkeys, fun v hv => ?_⟩
    obtain ⟨header', fields, additional, hsub, hname, hfields⟩ := hbranches v hv
    refine ⟨header', _, fields, additional, hsub, hname, fun d hd heq => ?_, rfl, rfl, rfl, rfl,
      hfields⟩
    exact List.inj_on_of_nodup_map hnodup hd (hsub.subset (by simp)) (heq.trans hname.symm)

theorem declarations_sketch :
    Naming.sketchDocument.Distinct ∧
      Schema.resolve Naming.sketchDocument = .ok Naming.sketchSchema ∧
      Naming.assign Naming.sketchRules Naming.sketchSchema (.string "sketch") =
        .ok Naming.sketchNames ∧
      ∃ m, mapSchema { Target.go.backend with rules := Naming.sketchRules } Naming.sketchNames
          Naming.sketchSchema (.ofSchema Naming.sketchSchema) = .ok m ∧
        m.declarations.map (·.name) = ["color_", "shade", "sketch", "sketch_", "sketch2"] ∧
        (m.declarations.map (·.name)).Nodup ∧
        ∀ t ∈ Declaration.walkTypes m.declarations ++ m.rootType.walk, t.kind = .named →
          ∃ d ∈ m.declarations, d.name = t.name := by
  refine ⟨Naming.distinct_sketch, Naming.resolve_sketch, Naming.assign_sketch, ?_⟩
  obtain ⟨m, hm, -, -, -, hnodup, -, -, hclosed, -⟩ :=
    declarations_of_run Naming.distinct_sketch Naming.resolve_sketch Naming.assign_sketch .go
      (.ofSchema Naming.sketchSchema)
  refine ⟨m, hm, ?_, hnodup, hclosed⟩
  have hnames : (mapSchema { Target.go.backend with rules := Naming.sketchRules }
      Naming.sketchNames Naming.sketchSchema (.ofSchema Naming.sketchSchema)).map
        (fun m => m.declarations.map (·.name)) =
      .ok ["color_", "shade", "sketch", "sketch_", "sketch2"] := by
    with_unfolding_all rfl
  rw [hm] at hnames
  exact Except.ok.inj hnames

end Typegen.Mapping
