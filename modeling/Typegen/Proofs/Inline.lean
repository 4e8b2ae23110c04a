import Typegen.Proofs.AliasChain
import Typegen.Proofs.Declared
import Typegen.Proofs.Meaning
import Typegen.Proofs.References
import Typegen.Proofs.Spelling
import Typegen.Target.Go.Render

/-!
# Values that are stored inline

In Go a struct holds the values of its fields, unless they are pointers, slices or maps, so a struct
that holds itself by way of others would have no finite size.  `Go.Inlines` is the relation between a
declaration and one whose values it holds.  There are three ways to get from one to the other: to a
type that is nested in a struct, through a reference, and from an alias to what it is a name for
(`Embeds`).  A reference that closes a cycle is a pointer, and nesting goes down, so only aliases can
make a cycle.
-/

namespace Typegen.Target.Go

/-- The types of the fields of a struct or the type that an alias names, each with its text. -/
def written : Declaration → List (TypeExpr × Except Failure String)
  | .struct _ fields _ _ => fields.map fun f => (f.type, fieldType f)
  | .synonym _ target => [(target, renderType target)]
  | _ => []

/-- A declaration holds values of another one: it has that type, written as a bare name. -/
def Inlines (ds : List Declaration) (d d' : Declaration) : Prop :=
  d ∈ ds ∧ d' ∈ ds ∧ ∃ t, t.kind = .named ∧ t.name = d'.name ∧ (t, .ok t.name) ∈ written d

/-- A declaration has a type whose text is the name of another one. -/
def Writes (ds : List Declaration) (d d' : Declaration) : Prop :=
  d ∈ ds ∧ d' ∈ ds ∧ ∃ t, (t, .ok d'.name) ∈ written d

variable {t : TypeExpr} {f : Field}

theorem renderType_named (h : t.kind = .named) : renderType t = .ok t.name := by
  obtain ⟨kind, name, args, absent, null, definition, byReference, notes⟩ := t
  obtain rfl : kind = .named := h
  rw [renderType, TypeExpr.spell]

theorem renderType_literal (h : t.kind = .literal) : renderType t = .ok "string" := by
  obtain ⟨kind, name, args, absent, null, definition, byReference, notes⟩ := t
  obtain rfl : kind = .literal := h
  rw [renderType, TypeExpr.spell, style]

theorem inlines_synonym {ds : List Declaration} {header : Header} {d' : Declaration}
    (hd : .synonym header t ∈ ds) (hd' : d' ∈ ds) (hkind : t.kind = .named)
    (hname : t.name = d'.name) : Inlines ds (.synonym header t) d' := by
  refine ⟨hd, hd', t, hkind, hname, List.mem_singleton.2 ?_⟩
  rw [renderType_named hkind]

/-- Names that are never mistaken for another type: they are plain and not predeclared. -/
structure NamesApart (r : Naming.Rules) : Prop where
  plain : r.SpellsPlainly
  predeclared : predeclared ⊆ r.reserved.words

theorem namesApart_rules : NamesApart rules where
  plain := ⟨by decide, by rintro _ ⟨⟩; decide, by rintro _ ⟨⟩; decide⟩
  predeclared := List.subset_append_right _ _

theorem fieldType_named (hkind : f.type.kind = .named) :
    fieldType f = .ok (if f.type.byReference then "*" ++ f.type.name else f.type.name) := by
  rw [fieldType, hkind, renderType_named hkind]
  cases f.type.byReference <;> rfl

theorem fieldType_of_ne (hkind : f.type.kind ≠ .named) : fieldType f = renderType f.type := by
  simp [fieldType, hkind]

/-- A field with a bare name is not stored behind a reference. -/
theorem byReference_of_bare (hkind : f.type.kind = .named) (h : fieldType f = .ok f.type.name) :
    f.type.byReference = false := by
  rw [fieldType_named hkind, Except.ok.injEq] at h
  cases hby : f.type.byReference with
  | false => rfl
  | true =>
    rw [hby, if_pos rfl] at h
    have hlength := congrArg String.length h
    rw [String.length_append] at hlength
    exact absurd hlength (by simp)

end Typegen.Target.Go

namespace Typegen.Mapping

open Relation (ReflTransGen TransGen)
open Schema (Node Info)

/-! ## Where declarations come from -/

/-- A declaration comes from a node: it is at its place, and the types of its fields are those of the
nodes directly below, or texts. -/
structure Origin (s : Scope) (n : Node) (d : Declaration) : Prop where
  path : d.header.path = n.path.text
  not_alias : d.isAlias = false
  types : ∀ f ∈ d.fields, f.type.kind = .literal ∨ ∃ c ∈ n.children, ∃ null core own,
    MapsNode { s with inContainer := false } c null core own ∧ f.type.Wraps null core

section

variable {s : Scope}

theorem types_of_mapFields {path : Pointer} {isOptional : Bool} {entries : List (String × Node)}
    {fields : List Field} {ds : List Declaration}
    (h : mapFields s path isOptional entries = .ok (fields, ds)) (hs : s.backend.Complete) :
    ∀ f ∈ fields, ∃ c ∈ entries.map Prod.snd, ∃ null core own, MapsNode s c null core own ∧
      f.type.Wraps null core := by
  obtain ⟨results, hresults, rfl, -⟩ := mapFields_eq_ok.1 h
  intro f hf
  obtain ⟨r, hr, rfl⟩ := List.mem_map.1 hf
  obtain ⟨e, he, t, name, hnode, -, hfield⟩ := exists_of_mem_right hresults hr
  obtain ⟨null, core, hmaps, rfl⟩ := exists_mapsNode hnode hs
  have hwraps := TypeExpr.wraps_nullIf hmaps.kind_ne_optional null
  refine ⟨e.2, List.mem_map_of_mem he, null, core, r.2, hmaps, ?_⟩
  rw [hfield]
  cases isOptional
  · exact hwraps
  · exact hwraps.withOptionality hmaps.kind_ne_optional

/-- What a declaration is built from is where it comes from. -/
theorem Builds.origin {n : Node} {d : Declaration} (h : Builds s n d) (hs : s.backend.Complete) :
    Origin s n d := by
  refine ⟨h.declares.path_eq, h.declares.not_isAlias, ?_⟩
  cases h with
  | enum | union => simp [Declaration.fields]
  | struct tags base htags hfirst hsecond hname =>
    intro f hf
    rcases List.mem_append.1 hf with hf | hf
    · obtain ⟨branch, name, rfl⟩ := htags f hf
      exact .inl rfl
    · rcases List.mem_append.1 hf with hf | hf
      · obtain ⟨c, hc, htype⟩ := types_of_mapFields hfirst hs f hf
        exact .inr ⟨c, List.mem_append_left _ hc, htype⟩
      · obtain ⟨c, hc, htype⟩ := types_of_mapFields hsecond hs f hf
        exact .inr ⟨c, List.mem_append_right _ hc, htype⟩

end

/-! ## Owners -/

/-- The definition that a place lies in; none for places of the root. -/
def ownerOf (path : String) : Option String :=
  match Pointer.read path with
  | key :: name :: _ => if key = "definitions" then some name else none
  | _ => none

/-- The number of keys that lead to a place. -/
def depthOf (path : String) : Nat := (Pointer.read path).length

/-- Places tell which body they lie in. -/
theorem Owns.ownerOf_eq {schema : Schema} (hsound : schema.Sound) {owner : Option String}
    {body n : Node} (h : Owns schema owner body) (hn : n ∈ body.preorder) :
    ownerOf n.path.text = owner := by
  rw [ownerOf, Pointer.read_text]
  cases owner with
  | some name =>
    obtain ⟨rest, hrest⟩ := (hsound.definitions _ h).under n hn
    rw [← hrest]
    rfl
  | none =>
    obtain rfl : body = schema.root := h
    rcases hsound.root.under_keyword hn with rfl | ⟨keyword, hkeyword, rest, hrest⟩
    · rw [hsound.root.path_eq]
      rfl
    · have hne : keyword ≠ "definitions" := by
        rintro rfl
        exact absurd hkeyword (by decide)
      rw [← hrest]
      cases rest with
      | nil => rfl
      | cons name rest => exact if_neg hne

theorem depthOf_lt_of_child {names : List String} {p : Pointer} {n c : Node}
    (h : n.Sound names p) (hc : c ∈ n.children) : depthOf n.path.text < depthOf c.path.text := by
  have hlt : ∀ keyword keys, c.path = p.push (keyword :: keys) →
      depthOf n.path.text < depthOf c.path.text := by
    intro keyword keys hpath
    simp only [depthOf, Pointer.read_text, h.path_eq, hpath, Pointer.segments_push,
      List.length_append, List.length_cons]
    omega
  cases h with
  | empty | ref | type | enum => simp [Node.children] at hc
  | elements _ hitem | values _ hitem =>
    rw [List.mem_singleton.1 hc] at hlt ⊢
    exact hlt _ _ hitem.path_eq
  | properties _ _ hrequired hoptional =>
    rw [Node.children, List.mem_append] at hc
    rcases hc with hc | hc
    · obtain ⟨e, he, rfl⟩ := List.mem_map.1 hc
      exact hlt _ _ (hrequired e he).path_eq
    · obtain ⟨e, he, rfl⟩ := List.mem_map.1 hc
      exact hlt _ _ (hoptional e he).path_eq
  | discriminator _ _ hmapping _ =>
    obtain ⟨e, he, rfl⟩ := List.mem_map.1 hc
    exact hlt _ _ (hmapping e he).path_eq

/-! ## The declarations of a schema -/

section

variable {backend : Backend} {names : Naming.Table} {schema : Schema} {graph : ReferenceGraph}
  {m : Mapped}

/-- The alias of a body. -/
def IsAliasOf (s : Scope) (body : Node) (d : Declaration) : Prop :=
  body.isNamed = false ∧ ∃ header null core inner t, d = .synonym header t ∧
    header.path = body.path.text ∧ MapsNode s body null core inner ∧
    (t = core ∨ t.Wraps null core)

/-- Every declaration comes from a node of some body, or is the alias of the body. -/
theorem origins_of_mapSchema (hbackend : backend.Complete) (hsound : schema.Sound)
    (h : mapSchema backend names schema graph = .ok m) :
    ∀ d ∈ m.declarations, ∃ owner body, Owns schema owner body ∧
      ((∃ n ∈ body.preorder, Origin { backend, names, schema, graph, owner } n d) ∨
        IsAliasOf { backend, names, schema, graph, owner } body d) := by
  intro d hd
  obtain ⟨owner, body, howns, ⟨n, hn, hbuilds⟩ | halias⟩ := builds_of_mapSchema hbackend hsound h hd
  · exact ⟨owner, body, howns, .inl ⟨n, hn, hbuilds.origin hbackend⟩⟩
  · obtain ⟨null, core, inner, id, t, hnamed, hmaps, rfl, ht⟩ := halias
    refine ⟨owner, body, howns, .inr ⟨hnamed, _, null, core, inner, t, rfl, rfl, hmaps, ?_⟩⟩
    rcases ht with ⟨rfl, -⟩ | ⟨rfl, -⟩
    · exact .inl rfl
    · exact .inr (TypeExpr.wraps_nullIf hmaps.kind_ne_optional null)

/-! ## Ways from one declaration to another -/

theorem eq_of_wraps_named {t core : TypeExpr} {null : Bool} (h : t.Wraps null core)
    (hkind : t.kind = .named) : t = core := by
  rcases h with ⟨-, heq⟩ | ⟨hoptional, -⟩
  · exact heq
  · rw [hkind] at hoptional
    cases hoptional

/-- The ways in which one declaration comes to hold values of another: by nesting, which stays in a
body and goes down; by a reference that closes no cycle; and by being another name. -/
inductive Embeds (schema : Schema) (d d' : Declaration) : Prop
  | nested (hd : d.isAlias = false) (hd' : d'.isAlias = false)
      (howner : ownerOf d'.header.path = ownerOf d.header.path)
      (hdepth : depthOf d.header.path < depthOf d'.header.path)
  | refers (target : String) (hd : d.isAlias = false)
      (howner : ownerOf d'.header.path = some target)
      (hfree : ∀ owner, ownerOf d.header.path = some owner → schema.Refers owner target ∧
        (ReferenceGraph.ofSchema schema).inCycle owner target = false)
  | renames (target : String) (hd : d.isAlias = true)
      (howner : ownerOf d'.header.path = some target)
      (hname : ∀ owner, ownerOf d.header.path = some owner → schema.Renames owner target)

variable {rules : Naming.Rules} {rootName : Json} {d d' : Declaration}
  (hbackend : backend.Complete) (hsound : schema.Sound)
  (hassign : Naming.assign rules schema rootName = .ok names)
include hbackend hsound hassign

theorem ownerOf_of_definition (h : mapSchema backend names schema graph = .ok m)
    (hd : d ∈ m.declarations) {target : String} (hid : names.definition target = .ok d.name) :
    ownerOf d.header.path = some target := by
  have hsuits := Naming.Table.suits_of_assign hassign
  have hmem := (Naming.Table.definition_eq_ok (hsuits.definitions ▸ hsound.nodup_names)).1 hid
  obtain ⟨⟨target', body⟩, he, hkey, -⟩ := exists_of_mem_right hsuits.own hmem
  obtain rfl : target = target' := hkey
  obtain ⟨id, hid', hb⟩ := exists_body_of_definition hsound hsuits he
  obtain ⟨d', hd', hpath, hname⟩ := exists_declaration_of_body hbackend hsound hsuits h hb
  obtain rfl : d = d' := List.inj_on_of_nodup_map
    (nodup_names_of_mapSchema hbackend hsound hassign h) hd hd'
    ((Except.ok.inj (hid.symm.trans hid')).trans hname.symm)
  have howns : Owns schema (some target) body := he
  rw [hpath]
  exact howns.ownerOf_eq hsound (Node.mem_preorder_self body)

theorem declares_of_typeName (h : mapSchema backend names schema graph = .ok m)
    (hd : d ∈ m.declarations) {n : Node} (hn : n ∈ schema.walk) (hnamed : n.isNamed = true)
    (hname : names.typeName n.path = .ok d.name) : Declares names n d := by
  obtain ⟨d', hd', hdeclares⟩ := exists_of_mem_left (declares_of_mapSchema hbackend hsound
    (Naming.Table.suits_of_assign hassign) h) (List.mem_filter.2 ⟨hn, hnamed⟩)
  obtain rfl : d = d' := List.inj_on_of_nodup_map
    (nodup_names_of_mapSchema hbackend hsound hassign h) hd (List.mem_of_mem_filter hd')
    (Except.ok.inj (hname.symm.trans hdeclares.typeName))
  exact hdeclares

/-- A field of a struct that is written as a bare name leads down or through a reference. -/
theorem Origin.embeds (h : mapSchema backend names schema (.ofSchema schema) = .ok m)
    {owner : Option String} {body n : Node} (howns : Owns schema owner body)
    (hn : n ∈ body.preorder)
    (horigin : Origin { backend, names, schema, graph := .ofSchema schema, owner } n d)
    (hd' : d' ∈ m.declarations) {f : Field} (hf : f ∈ d.fields) (hkind : f.type.kind = .named)
    (hname : f.type.name = d'.name) (hby : f.type.byReference = false) : Embeds schema d d' := by
  have howner : ownerOf d.header.path = owner := by
    rw [horigin.path]
    exact howns.ownerOf_eq hsound hn
  rcases horigin.types f hf with hliteral | ⟨c, hc, null, core, own, hmaps, hwraps⟩
  · rw [hkind] at hliteral
    cases hliteral
  have hcore := eq_of_wraps_named hwraps hkind
  have hbelow := Node.mem_preorder_of_child hn hc
  -- A type that is nested in the struct is at a place below it.
  have hnested : c.isNamed = true → names.typeName c.path = .ok d'.name → Embeds schema d d' := by
    intro hnamed htype
    have hdeclares := declares_of_typeName hbackend hsound hassign h hd' (howns.mem_walk hbelow)
      hnamed htype
    refine .nested horigin.not_alias hdeclares.not_isAlias ?_ ?_
    · rw [howner, hdeclares.path_eq]
      exact howns.ownerOf_eq hsound hbelow
    · rw [horigin.path, hdeclares.path_eq]
      exact depthOf_lt_of_child (hsound.of_mem_walk (howns.mem_walk hn)) hc
  rw [hcore] at hkind hname hby
  cases hmaps with
  | @ref info target id null hid hnull =>
    rw [show id = d'.name from hname] at hid
    refine .refers target horigin.not_alias
      (ownerOf_of_definition hbackend hsound hassign h hd' hid) fun o ho => ?_
    rw [howner] at ho
    subst ho
    refine ⟨⟨body, lookup_of_mem hsound.nodup_names howns, info, hbelow⟩, ?_⟩
    simpa [TypeExpr.named, Scope.byReference] using hby
  | enum htype | properties _ _ htype | discriminator _ htype =>
    exact hnested rfl (hname ▸ htype)
  | empty | type | elements | values => cases hkind

/-- An alias that is written as a bare name is another name for a definition. -/
theorem IsAliasOf.embeds (h : mapSchema backend names schema graph = .ok m) {owner : Option String}
    {body : Node} {header : Header} {t : TypeExpr} (howns : Owns schema owner body)
    (halias : IsAliasOf { backend, names, schema, graph, owner } body (.synonym header t))
    (hd' : d' ∈ m.declarations) (hkind : t.kind = .named) (hname : t.name = d'.name) :
    Embeds schema (.synonym header t) d' := by
  obtain ⟨hnamed, header', null, core, inner, t', heq, hpath, hmaps, ht⟩ := halias
  cases heq
  obtain rfl : t = core := ht.elim id fun hwraps => eq_of_wraps_named hwraps hkind
  cases hmaps with
  | @ref info target id null hid hnull =>
    rw [show id = d'.name from hname] at hid
    refine .renames target rfl (ownerOf_of_definition hbackend hsound hassign h hd' hid)
      fun o ho => ?_
    have howner : ownerOf header.path = owner := by
      rw [hpath]
      exact howns.ownerOf_eq hsound (Node.mem_preorder_self _)
    obtain rfl : owner = some o := howner.symm.trans ho
    exact ⟨info, lookup_of_mem hsound.nodup_names howns⟩
  | enum | properties | discriminator => cases hnamed
  | empty | type | elements | values => cases hkind

theorem embeds_of_inlines (h : mapSchema backend names schema (.ofSchema schema) = .ok m)
    (hinlines : Target.Go.Inlines m.declarations d d') : Embeds schema d d' := by
  obtain ⟨hd, hd', t, hkind, hname, hwritten⟩ := hinlines
  obtain ⟨owner, body, howns, ⟨n, hn, horigin⟩ | halias⟩ :=
    origins_of_mapSchema hbackend hsound h d hd
  · cases d with
    | struct header fields base additional =>
      obtain ⟨f, hf, heq⟩ := List.mem_map.1 hwritten
      obtain ⟨rfl, htext⟩ := Prod.mk.inj heq
      exact horigin.embeds hbackend hsound hassign h howns hn hd' hf hkind hname
        (Target.Go.byReference_of_bare hkind htext)
    | synonym => cases horigin.not_alias
    | enum | union => simp [Target.Go.written] at hwritten
  · cases d with
    | synonym header target =>
      obtain ⟨rfl, -⟩ := Prod.mk.inj (List.mem_singleton.1 hwritten)
      exact halias.embeds hbackend hsound hassign h howns hd' hkind hname
    | struct | enum | union =>
      obtain ⟨-, _, _, _, _, _, heq, -⟩ := halias
      cases heq

end

/-! ## Cycles -/

section

variable {schema : Schema} {d d' : Declaration}

/-- Whoever holds values of another declaration has references to its owner. -/
theorem Embeds.leads (h : ReflTransGen (Embeds schema) d d') {owner : String}
    (howner : ownerOf d.header.path = some owner) : ∃ owner',
      ownerOf d'.header.path = some owner' ∧ ReflTransGen schema.Refers owner owner' := by
  induction h with
  | refl => exact ⟨owner, howner, .refl⟩
  | tail _ hstep ih =>
    obtain ⟨mid, hmid, hleads⟩ := ih
    cases hstep with
    | nested _ _ hsame => exact ⟨mid, hsame.trans hmid, hleads⟩
    | refers target _ htarget hfree => exact ⟨target, htarget, hleads.tail (hfree mid hmid).1⟩
    | renames target _ htarget hname =>
      obtain ⟨info, hbody⟩ := hname mid hmid
      exact ⟨target, htarget, hleads.tail ⟨_, hbody, info, Node.mem_preorder_self _⟩⟩

/-- A step that can be undone. -/
def Returns (schema : Schema) (d d' : Declaration) : Prop :=
  Embeds schema d d' ∧ ReflTransGen (Embeds schema) d' d

/-- Every step of a cycle can be undone. -/
theorem returns_of_cycle (h : TransGen (Embeds schema) d d')
    (hback : ReflTransGen (Embeds schema) d' d) : TransGen (Returns schema) d d' := by
  induction h with
  | single hstep => exact .single ⟨hstep, hback⟩
  | tail hpath hstep ih =>
    have hreturn := hback.trans hpath.to_reflTransGen
    exact (ih (.head hstep hback)).tail ⟨hstep, hreturn⟩

/-- A reference that closes no cycle cannot be undone. -/
theorem Returns.cases (h : Returns schema d d') :
    (d.isAlias = false ∧ d'.isAlias = false ∧ depthOf d.header.path < depthOf d'.header.path) ∨
      (d.isAlias = true ∧ ∃ owner target, ownerOf d.header.path = some owner ∧
        ownerOf d'.header.path = some target ∧ schema.Renames owner target) := by
  obtain ⟨hstep, hback⟩ := h
  cases hstep with
  | nested hd hd' _ hdepth => exact .inl ⟨hd, hd', hdepth⟩
  | refers target _ htarget hfree =>
    -- The way back makes the reference close a cycle, and then it would be a pointer.
    obtain ⟨owner, howner, hleads⟩ := Embeds.leads hback htarget
    obtain ⟨hrefers, hcycle⟩ := hfree owner howner
    have hback' : TransGen schema.Refers target owner := by
      rcases Relation.reflTransGen_iff_eq_or_transGen.1 hleads with rfl | hback'
      · exact .single hrefers
      · exact hback'
    rw [Schema.inCycle_iff.2 ⟨.single hrefers, hback'⟩] at hcycle
    cases hcycle
  | renames target hd htarget hname =>
    obtain ⟨owner, howner, -⟩ := Embeds.leads hback htarget
    exact .inr ⟨hd, owner, target, howner, htarget, hname owner howner⟩

/-- From a struct a cycle could only go down. -/
theorem depthOf_lt_of_returns (h : TransGen (Returns schema) d d') (hd : d.isAlias = false) :
    d'.isAlias = false ∧ depthOf d.header.path < depthOf d'.header.path := by
  induction h with
  | single hstep =>
    rcases hstep.cases with ⟨-, hd', hlt⟩ | ⟨halias, -⟩
    · exact ⟨hd', hlt⟩
    · rw [hd] at halias
      cases halias
  | tail _ hstep ih =>
    rcases hstep.cases with ⟨-, hd', hlt⟩ | ⟨halias, -⟩
    · exact ⟨hd', Nat.lt_trans ih.2 hlt⟩
    · rw [ih.1] at halias
      cases halias

/-- A cycle that comes back to an alias goes through aliases only. -/
theorem renames_of_returns (h : TransGen (Returns schema) d d') (hd' : d'.isAlias = true) :
    ∃ owner target, ownerOf d.header.path = some owner ∧ ownerOf d'.header.path = some target ∧
      TransGen schema.Renames owner target := by
  induction h using Relation.TransGen.head_induction_on with
  | single hstep =>
    rcases hstep.cases with ⟨-, hd, -⟩ | ⟨-, owner, target, howner, htarget, hname⟩
    · rw [hd'] at hd
      cases hd
    · exact ⟨owner, target, howner, htarget, .single hname⟩
  | head hstep hrest ih =>
    obtain ⟨mid, target, hmid, htarget, hnames⟩ := ih
    rcases hstep.cases with ⟨-, hd, -⟩ | ⟨-, owner, mid', howner, hmid', hname⟩
    · -- From a struct the way never leads to an alias.
      have hother := (depthOf_lt_of_returns hrest hd).1
      rw [hd'] at hother
      cases hother
    · obtain rfl := Option.some.inj (hmid.symm.trans hmid')
      exact ⟨owner, target, howner, htarget, .head hname hnames⟩

theorem exists_loop_of_cycle (h : TransGen (Embeds schema) d d) :
    ∃ name, TransGen schema.Renames name name := by
  have hreturns := returns_of_cycle h .refl
  cases halias : d.isAlias with
  | false => exact absurd (depthOf_lt_of_returns hreturns halias).2 (Nat.lt_irrefl _)
  | true =>
    obtain ⟨owner, target, howner, htarget, hnames⟩ := renames_of_returns hreturns halias
    obtain rfl := Option.some.inj (howner.symm.trans htarget)
    exact ⟨owner, hnames⟩

end

/-! ## Loops of aliases -/

section

variable {backend : Backend} {names : Naming.Table} {schema : Schema} {m : Mapped}
  {rules : Naming.Rules} {rootName : Json} {graph : ReferenceGraph}
  (hbackend : backend.Complete) (hsound : schema.Sound)
  (hassign : Naming.assign rules schema rootName = .ok names)
include hbackend hsound hassign

theorem exists_declaration_of_name (h : mapSchema backend names schema graph = .ok m)
    {name : String} (hname : name ∈ schema.names) :
    ∃ d ∈ m.declarations, names.definition name = .ok d.name := by
  have hsuits := Naming.Table.suits_of_assign hassign
  obtain ⟨body, hbody⟩ := exists_lookup_of_mem_keys hname
  obtain ⟨id, hid, hb⟩ := exists_body_of_definition hsound hsuits (mem_of_lookup hbody)
  obtain ⟨d, hd, -, rfl⟩ := exists_declaration_of_body hbackend hsound hsuits h hb
  exact ⟨d, hd, hid⟩

/-- A definition that is another name holds values of what it is a name for. -/
theorem inlines_of_renames (h : mapSchema backend names schema graph = .ok m) {a b : String}
    (hrename : schema.Renames a b) {d d' : Declaration} (hd : d ∈ m.declarations)
    (hid : names.definition a = .ok d.name) (hd' : d' ∈ m.declarations)
    (hid' : names.definition b = .ok d'.name) : Target.Go.Inlines m.declarations d d' := by
  have hnodup := nodup_names_of_mapSchema hbackend hsound hassign h
  obtain ⟨info, hbody⟩ := hrename
  obtain ⟨dss, t, rest, hdss, -, rfl⟩ := mapSchema_eq_ok.1 h
  obtain ⟨ds, hds, hmap⟩ := exists_of_mem_left hdss (mem_of_lookup hbody)
  obtain ⟨null, core, inner, id, hmaps, hown, rfl⟩ := (mapDefinition_eq_ok hbackend).1 hmap
  cases hmaps with
  | @ref _ _ id' null hb hnull =>
    have hmem : .synonym ⟨id, info.path.text, info.description⟩ (.named id' (some b) _) ∈
        dss.flatten ++ rest :=
      List.mem_append_left _ (List.mem_flatten.2 ⟨_, hds, List.mem_singleton.2 rfl⟩)
    obtain rfl := List.inj_on_of_nodup_map hnodup hd hmem
      (Except.ok.inj (hid.symm.trans (hown rfl)))
    exact Target.Go.inlines_synonym hd hd' rfl (Except.ok.inj (hb.symm.trans hid'))

theorem inlines_of_loop (h : mapSchema backend names schema graph = .ok m) {a b : String}
    (hpath : TransGen schema.Renames a b) {d d' : Declaration} (hd : d ∈ m.declarations)
    (hid : names.definition a = .ok d.name) (hd' : d' ∈ m.declarations)
    (hid' : names.definition b = .ok d'.name) :
    TransGen (Target.Go.Inlines m.declarations) d d' := by
  induction hpath generalizing d' with
  | single hstep =>
    exact .single (inlines_of_renames hbackend hsound hassign h hstep hd hid hd' hid')
  | tail _ hstep ih =>
    obtain ⟨info, hbody⟩ := hstep
    obtain ⟨mid, hmid, hmid'⟩ := exists_declaration_of_name hbackend hsound hassign h
      (List.mem_map_of_mem (f := Prod.fst) (mem_of_lookup hbody))
    exact (ih hmid hmid').tail
      (inlines_of_renames hbackend hsound hassign h ⟨info, hbody⟩ hmid hmid' hd' hid')

/-- Values have a finite size unless an alias chain has no end. -/
theorem exists_inlines_cycle_iff (h : mapSchema backend names schema (.ofSchema schema) = .ok m) :
    (∃ d, TransGen (Target.Go.Inlines m.declarations) d d) ↔
      ∃ name ∈ schema.names, schema.resolveAlias name = .ok none := by
  rw [Schema.exists_resolveAlias_none_iff hsound.mem_names_of_renames]
  constructor
  · rintro ⟨d, hcycle⟩
    have hembeds : Target.Go.Inlines m.declarations ≤ Embeds schema :=
      fun _ _ => embeds_of_inlines hbackend hsound hassign h
    exact exists_loop_of_cycle (TransGen.mono hembeds _ _ hcycle)
  · rintro ⟨name, hloop⟩
    obtain ⟨next, ⟨info, hbody⟩, -⟩ := Relation.TransGen.head'_iff.1 hloop
    obtain ⟨d, hd, hid⟩ := exists_declaration_of_name hbackend hsound hassign h
      (List.mem_map_of_mem (f := Prod.fst) (mem_of_lookup hbody))
    exact ⟨d, inlines_of_loop hbackend hsound hassign h hloop hd hid hd hid⟩

end

/-! ## Texts -/

section

open Target.Go (renderType predeclared isNilable)
open Text (Plain)

variable {s : Scope} {n : Node} {null : Bool} {core t : TypeExpr} {own : List Declaration}
  {text : String}

theorem not_plain_of_mem {c : Char} {rest : String} (h : c ∈ text.toList)
    (hc : ¬(Text.isWordChar c = true ∨ c = '_')) : ¬Plain (text ++ rest).toList := by
  rw [String.toList_append]
  exact fun hplain => hc (hplain c (List.mem_append_left _ h))

/-- A type that is no declared one is written as a predeclared name, or with other characters than
those of names; the latter if it can be nil. -/
theorem text_of_mapsNode (hs : s.backend.target = .go) (h : MapsNode s n null core own)
    (hkind : core.kind ≠ .named) (htext : renderType core = .ok text) :
    (text ∈ predeclared ∧ isNilable core.kind = false) ∨ ¬Plain text.toList := by
  cases h with
  | empty =>
    rw [hs] at htext
    obtain rfl := Except.ok.inj htext
    exact .inr (by decide)
  | type info p =>
    rw [hs] at htext
    obtain rfl := Except.ok.inj htext
    cases p with
    | timestamp => exact .inr (by decide)
    | _ => exact .inl ⟨by decide, rfl⟩
  | elements | values =>
    obtain ⟨item, -, heq⟩ := bind_eq_ok.1 htext
    obtain rfl := pure_eq_ok.1 heq
    exact .inr (not_plain_of_mem (c := '[') (by decide) (by decide))
  | ref | enum | properties | discriminator => exact absurd rfl hkind

theorem text_of_wraps (hs : s.backend.target = .go) (h : MapsNode s n null core own)
    (hwraps : t.Wraps null core) (hkind : t.kind ≠ .named) (htext : renderType t = .ok text) :
    text ∈ predeclared ∨ ¬Plain text.toList := by
  rcases hwraps with ⟨-, rfl⟩ | ⟨hoptional, hargs, -⟩
  · exact (text_of_mapsNode hs h hkind htext).imp_left And.left
  · obtain ⟨kind, name, args, absent, null', definition, byReference, notes⟩ := t
    obtain rfl : kind = .optional := hoptional
    obtain rfl : args = [core] := hargs
    obtain ⟨item, hitem, heq⟩ := bind_eq_ok.1 htext
    obtain rfl := pure_eq_ok.1 heq
    refine .inr ?_
    cases hnilable : isNilable core.kind with
    | false =>
      simp only [Target.Go.style, hnilable, Bool.false_eq_true, if_false]
      exact not_plain_of_mem (c := '*') (by decide) (by decide)
    | true =>
      simp only [Target.Go.style, hnilable, if_true]
      rcases text_of_mapsNode hs h (fun hnamed => by rw [hnamed] at hnilable; cases hnilable) hitem
        with ⟨-, hfalse⟩ | hplain
      · rw [hnilable] at hfalse
        cases hfalse
      · exact hplain

variable {backend : Backend} {names : Naming.Table} {schema : Schema} {graph : ReferenceGraph}
  {m : Mapped}

/-- Every type of a declaration is a declared one under its name, or its text is no name of a
declaration. -/
theorem text_of_written (hbackend : backend.Complete) (hgo : backend.target = .go)
    (hsound : schema.Sound) (h : mapSchema backend names schema graph = .ok m) {d : Declaration}
    (hd : d ∈ m.declarations) (hwritten : (t, .ok text) ∈ Target.Go.written d) :
    (t.kind = .named ∧ t.name = text) ∨ text ∈ predeclared ∨ ¬Plain text.toList := by
  obtain ⟨owner, body, howns, ⟨n, hn, horigin⟩ | halias⟩ :=
    origins_of_mapSchema hbackend hsound h d hd
  · cases d with
    | struct header fields base additional =>
      obtain ⟨f, hf, heq⟩ := List.mem_map.1 hwritten
      obtain ⟨rfl, htext⟩ := Prod.mk.inj heq
      by_cases hkind : f.type.kind = .named
      · rw [Target.Go.fieldType_named hkind, Except.ok.injEq] at htext
        split at htext
        · exact .inr (.inr (htext ▸ not_plain_of_mem (c := '*') (by decide) (by decide)))
        · exact .inl ⟨hkind, htext⟩
      · rw [Target.Go.fieldType_of_ne hkind] at htext
        rcases horigin.types f hf with hliteral | ⟨c, hc, null, core, own, hmaps, hwraps⟩
        · rw [Target.Go.renderType_literal hliteral] at htext
          exact .inr (.inl (Except.ok.inj htext ▸ by decide))
        · exact .inr (text_of_wraps hgo hmaps hwraps hkind htext)
    | synonym => cases horigin.not_alias
    | enum | union => simp [Target.Go.written] at hwritten
  · obtain ⟨hnamed, header, null, core, inner, t', rfl, hpath, hmaps, ht⟩ := halias
    obtain ⟨rfl, htext⟩ := Prod.mk.inj (List.mem_singleton.1 hwritten)
    by_cases hkind : t.kind = .named
    · rw [Target.Go.renderType_named hkind, Except.ok.injEq] at htext
      exact .inl ⟨hkind, htext.symm⟩
    · rcases ht with rfl | hwraps
      · exact .inr ((text_of_mapsNode hgo hmaps hkind htext.symm).imp_left And.left)
      · exact .inr (text_of_wraps hgo hmaps hwraps hkind htext.symm)

theorem claimsType_of_mapSchema {rules : Naming.Rules} {rootName : Json}
    (hbackend : backend.Complete) (hsound : schema.Sound)
    (hassign : Naming.assign rules schema rootName = .ok names)
    (h : mapSchema backend names schema graph = .ok m) :
    ∀ d ∈ m.declarations, rules.ClaimsType d.name := by
  obtain ⟨hdefinitions, hroot, hnodes⟩ := Naming.claimsType_of_assign hassign
  obtain ⟨hothers, haliases⟩ := map_name_declarations hbackend hsound
    (Naming.Table.suits_of_assign hassign) h
  intro d hd
  cases halias : d.isAlias with
  | false =>
    have hmem : d.name ∈ (m.declarations.filter fun d => !d.isAlias).map (·.name) :=
      List.mem_map_of_mem (List.mem_filter.2 ⟨hd, by simp [halias]⟩)
    rw [hothers] at hmem
    obtain ⟨e, he, heq⟩ := List.mem_map.1 hmem
    exact heq ▸ hnodes e he
  | true =>
    have hmem : d.name ∈ (m.declarations.filter Declaration.isAlias).map (·.name) :=
      List.mem_map_of_mem (List.mem_filter.2 ⟨hd, halias⟩)
    rw [haliases, Naming.Table.aliases, Naming.aliasIds] at hmem
    obtain ⟨b, hb, heq⟩ := List.mem_map.1 hmem
    have hid := (List.of_mem_zip (List.mem_of_mem_filter hb)).2
    rw [heq, List.mem_append, List.mem_singleton] at hid
    rcases hid with hid | hid
    · obtain ⟨i, hi, heq⟩ := List.mem_map.1 hid
      exact heq ▸ hdefinitions i hi
    · exact hid ▸ hroot

/-- By rules that keep names apart, a text that is the name of a declaration stands for it. -/
theorem inlines_iff_writes {rules : Naming.Rules} {rootName : Json} (hbackend : backend.Complete)
    (hgo : backend.target = .go) (hsound : schema.Sound)
    (hassign : Naming.assign rules schema rootName = .ok names)
    (h : mapSchema backend names schema graph = .ok m) (hrules : Target.Go.NamesApart rules)
    (d d' : Declaration) :
    Target.Go.Inlines m.declarations d d' ↔ Target.Go.Writes m.declarations d d' := by
  constructor
  · rintro ⟨hd, hd', t, -, hname, hwritten⟩
    exact ⟨hd, hd', t, hname ▸ hwritten⟩
  · rintro ⟨hd, hd', t, hwritten⟩
    have hclaims := claimsType_of_mapSchema hbackend hsound hassign h d' hd'
    rcases text_of_written hbackend hgo hsound h hd hwritten with
      ⟨hkind, hname⟩ | hreserved | hplain
    · exact ⟨hd, hd', t, hkind, hname, hname ▸ hwritten⟩
    · exact absurd (hrules.predeclared hreserved) hclaims.notMem_reserved
    · exact absurd (hclaims.plain hrules.plain) hplain

end

/-- Every schema can be mapped, and values of the types have a finite size unless definitions are
nothing but names for one another.  The same holds of the texts, by rules that keep names apart. -/
theorem inlineCycles_of_run {document : Json} {schema : Schema} {rules : Naming.Rules}
    {rootName : Json} {names : Naming.Table} (hdistinct : document.Distinct)
    (hresolve : Schema.resolve document = .ok schema)
    (hassign : Naming.assign rules schema rootName = .ok names) :
    ∃ m, mapSchema { Target.go.backend with rules := rules } names schema (.ofSchema schema) =
        .ok m ∧
      ((∃ d, TransGen (Target.Go.Inlines m.declarations) d d) ↔
        ∃ name ∈ schema.names, schema.resolveAlias name = .ok none) ∧
      (Target.Go.NamesApart rules → ((∃ d, TransGen (Target.Go.Writes m.declarations) d d) ↔
        ∃ name ∈ schema.names, schema.resolveAlias name = .ok none)) := by
  have hsound := Schema.sound_of_resolve hdistinct hresolve
  have hbackend := Target.go.complete_backend rules
  obtain ⟨m, h⟩ := exists_mapSchema hbackend hsound (Naming.Table.suits_of_assign hassign)
    (.ofSchema schema)
  have hinlines := exists_inlines_cycle_iff hbackend hsound hassign h
  refine ⟨m, h, hinlines, fun hrules => ?_⟩
  have hwrites : Target.Go.Inlines m.declarations = Target.Go.Writes m.declarations := by
    ext d d'
    exact inlines_iff_writes hbackend rfl hsound hassign h hrules d d'
  rw [← hwrites]
  exact hinlines

/-- A struct that holds itself, and two definitions that are names for one another. -/
def ringDocument : Json := .object [
  ("definitions", .object [
    ("node", .object [("properties", .object [("next", .object [("ref", .string "node")])])]),
    ("ping", .object [("ref", .string "pong")]),
    ("pong", .object [("ref", .string "ping")])]),
  ("ref", .string "node")]

/-- What it is resolved to. -/
def ringSchema : Schema where
  definitions := [
    ("node", .properties ⟨⟨["definitions", "node"]⟩, false, some "node", []⟩
      [("next", .ref ⟨⟨["definitions", "node", "properties", "next"]⟩, false, none, []⟩ "node")]
      [] false),
    ("ping", .ref ⟨⟨["definitions", "ping"]⟩, false, some "ping", []⟩ "pong"),
    ("pong", .ref ⟨⟨["definitions", "pong"]⟩, false, some "pong", []⟩ "ping")]
  root := .ref ⟨⟨[]⟩, false, none, []⟩ "node"

theorem distinct_ring : ringDocument.Distinct := by
  simp [ringDocument, Json.keys]

theorem resolve_ring : Schema.resolve ringDocument = .ok ringSchema := by
  with_unfolding_all rfl

/-- The names by the rules of Go. -/
def ringNames : Naming.Table where
  root := "Ring"
  definitions := [("node", "Node"), ("ping", "Ping"), ("pong", "Pong")]
  nodes := [(⟨["definitions", "node"]⟩, .struct "Node" [⟨"Next", "next"⟩])]

theorem assign_ring :
    Naming.assign Target.Go.rules ringSchema (.string "ring") = .ok ringNames := by
  with_unfolding_all rfl

theorem inlineCycles_ring :
    ringDocument.Distinct ∧ Schema.resolve ringDocument = .ok ringSchema ∧
      Naming.assign Target.Go.rules ringSchema (.string "ring") = .ok ringNames ∧
      Target.Go.NamesApart Target.Go.rules ∧ ringSchema.resolveAlias "ping" = .ok none ∧
      ∃ m, mapSchema Target.go.backend ringNames ringSchema (.ofSchema ringSchema) = .ok m ∧
        ∃ d, TransGen (Target.Go.Writes m.declarations) d d := by
  have hloop : ringSchema.resolveAlias "ping" = .ok none := by
    with_unfolding_all rfl
  obtain ⟨m, hm, -, hwrites⟩ := inlineCycles_of_run distinct_ring resolve_ring assign_ring
  exact ⟨distinct_ring, resolve_ring, assign_ring, Target.Go.namesApart_rules, hloop, m, hm,
    (hwrites Target.Go.namesApart_rules).2 ⟨"ping", by decide, hloop⟩⟩

end Typegen.Mapping
