import Typegen.Proofs.Declared
import Typegen.Proofs.Meaning

/-!
# The mapping preserves meaning

A node and the type it is mapped to mean the same values.  `Run.Types` says which nodes of a run
have which types, and `Run.Declared` what is declared for a node, in terms of the types of the nodes
below.  One direction is an induction over why a node accepts a value (`Run.admits_of_accepts`), the
other over why a type admits it (`Run.accepts_of_admits`).  Both go through the branches of unions
too, which are structs with one more field than their nodes have keys.  Null is left out of the
types of definitions and added where they are referred to; that nothing is lost that way is told by
the alias chains.
-/

namespace Typegen.Mapping

open Schema (Node Info Primitive)

/-! ## Runs -/

/-- A schema with its names and the declarations it is mapped to. -/
structure Run where
  backend : Backend
  names : Naming.Table
  schema : Schema
  declarations : List Declaration
  complete : backend.Complete
  sound : schema.Sound
  suits : names.Suits schema
  nodup : (declarations.map Declaration.name).Nodup
  mapped : ∀ b ∈ bodies names schema, ∃ own, MapsBody backend names schema b own ∧
    own ⊆ declarations

namespace Run

/-- The run of a mapping that succeeds. -/
def ofMapSchema {backend : Backend} {names : Naming.Table} {schema : Schema}
    {graph : ReferenceGraph} {rules : Naming.Rules} {rootName : Json} {m : Mapped}
    (hbackend : backend.Complete) (hsound : schema.Sound)
    (hassign : Naming.assign rules schema rootName = .ok names)
    (h : mapSchema backend names schema graph = .ok m) : Run where
  backend := backend
  names := names
  schema := schema
  declarations := m.declarations
  complete := hbackend
  sound := hsound
  suits := Naming.Table.suits_of_assign hassign
  nodup := nodup_names_of_mapSchema hbackend hsound hassign h
  mapped := by
    intro b hb
    obtain ⟨dss, hdss, heq⟩ :=
      mapsBody_of_mapSchema hbackend hsound (Naming.Table.suits_of_assign hassign) h
    obtain ⟨own, hown, hmaps⟩ := exists_of_mem_left hdss hb
    exact ⟨own, hmaps, heq ▸ (List.sublist_flatten_of_mem hown).subset⟩

variable {run : Run}

/-- The declarations by name. -/
def env (run : Run) : List (String × Declaration) := Declaration.byName run.declarations

variable {s : Scope} {n : Node} {t core : TypeExpr} {null additional : Bool} {v : Json}
  {d : Declaration} {p : Pointer} {own : List Declaration} {fields : List Field}
  {required optional : List (String × Node)}

theorem lookup_env (hd : d ∈ run.declarations) : run.env.lookup d.name = some d :=
  lookup_byName run.nodup hd

/-- A scope in which nodes of the run are mapped. -/
structure Has (run : Run) (s : Scope) : Prop where
  backend : s.backend = run.backend
  names : s.names = run.names
  schema : s.schema = run.schema

theorem Has.complete (hs : run.Has s) : s.backend.Complete :=
  hs.backend ▸ run.complete

theorem Has.container (hs : run.Has s) (inContainer : Bool) : run.Has { s with inContainer } :=
  ⟨hs.backend, hs.names, hs.schema⟩

/-! ## Types of nodes -/

/-- A node of the run has a type, to which null is added or not. -/
def Types (run : Run) (n : Node) (null : Bool) (core : TypeExpr) : Prop :=
  ∃ s p own, run.Has s ∧ n.Sound run.schema.names p ∧ MapsNode s n null core own ∧
    own ⊆ run.declarations

theorem exists_types (hs : run.Has s) (hn : n.Sound run.schema.names p)
    (h : mapNode s n = .ok (t, own)) (hown : own ⊆ run.declarations) :
    ∃ null core, run.Types n null core ∧ t = core.nullIf null := by
  obtain ⟨null, core, hmaps, rfl⟩ := exists_mapsNode h hs.complete
  exact ⟨null, core, ⟨s, p, own, hs, hn, hmaps, hown⟩, rfl⟩

section

variable {n : Node} {null : Bool} {core : TypeExpr}

theorem Types.kind_ne_optional (h : run.Types n null core) : core.kind ≠ .optional := by
  obtain ⟨s, p, own, -, -, hmaps, -⟩ := h
  exact hmaps.kind_ne_optional

theorem Types.wraps_nullIf (h : run.Types n null core) : (core.nullIf null).Wraps null core :=
  TypeExpr.wraps_nullIf h.kind_ne_optional null

/-- Null is added to the type of a node when its alias chain is nullable. -/
theorem Types.null_eq (h : run.Types n null core) :
    null = run.schema.chainNullable run.schema.names n := by
  obtain ⟨s, p, own, hs, hn, hmaps, -⟩ := h
  cases hmaps with
  | ref hid hnull =>
    cases hn with
    | ref hpath htarget =>
      obtain ⟨body, hbody⟩ := exists_lookup_of_mem_keys htarget
      rw [hs.schema, Schema.isNullable_of_definition hbody] at hnull
      rw [Schema.chainNullable_ref hbody, Except.ok.inj hnull]
  | empty | type | enum | elements | values | properties | discriminator =>
    simp [Schema.chainNullable, Node.nullable, Node.info]

end

/-! ## Fields -/

/-- The field of a key. -/
def IsField (run : Run) (e : String × Node) (f : Field) : Prop :=
  f.wire = e.1 ∧ ∃ null core, run.Types e.2 null core ∧ f.type.Wraps null core

/-- The fields of a struct: those of the required keys and then those of the optional ones. -/
def FieldsOf (run : Run) (required optional : List (String × Node)) (fields : List Field) : Prop :=
  ∃ first second, fields = first ++ second ∧
    List.Forall₂ (fun e f => run.IsField e f ∧ f.mayBeAbsent = false) required first ∧
    List.Forall₂ (fun e f => run.IsField e f ∧ f.mayBeAbsent = true) optional second

theorem isField_of_mapFields {path : Pointer} {isOptional : Bool} {entries : List (String × Node)}
    (hs : run.Has s) (h : mapFields s path isOptional entries = .ok (fields, own))
    (hentries : ∀ e ∈ entries, ∃ p, e.2.Sound run.schema.names p) (hown : own ⊆ run.declarations) :
    List.Forall₂ (fun e f => run.IsField e f ∧ f.mayBeAbsent = isOptional) entries fields := by
  obtain ⟨results, hresults, rfl, rfl⟩ := mapFields_eq_ok.1 h
  rw [List.forall₂_map_right_iff]
  refine forall₂_imp_mem hresults fun e he r hr ⟨t, name, hnode, _, hfield⟩ => ?_
  obtain ⟨p, hp⟩ := hentries e he
  have hsub : r.2 ⊆ results.flatMap Prod.snd := fun d hd => List.mem_flatMap.2 ⟨r, hr, hd⟩
  obtain ⟨null, core, htypes, rfl⟩ := exists_types hs hp hnode (List.Subset.trans hsub hown)
  have hcore := htypes.kind_ne_optional
  rw [hfield]
  cases isOptional with
  | false =>
    refine ⟨⟨rfl, null, core, htypes, htypes.wraps_nullIf⟩, ?_⟩
    cases null <;> simp [Field.mayBeAbsent, TypeExpr.nullIf, TypeExpr.withOptionality, hcore]
  | true =>
    refine ⟨⟨rfl, null, core, htypes, htypes.wraps_nullIf.withOptionality hcore⟩, ?_⟩
    cases null <;> simp [Field.mayBeAbsent, TypeExpr.nullIf, TypeExpr.withOptionality, hcore]

section

variable {required optional : List (String × Node)} {fields : List Field}

theorem FieldsOf.isField (h : run.FieldsOf required optional fields) :
    List.Forall₂ run.IsField (required ++ optional) fields := by
  obtain ⟨first, second, rfl, hfirst, hsecond⟩ := h
  exact List.rel_append (hfirst.imp fun _ _ h => h.1) (hsecond.imp fun _ _ h => h.1)

theorem FieldsOf.map_wire (h : run.FieldsOf required optional fields) :
    fields.map Field.wire = (required ++ optional).map Prod.fst :=
  map_eq_of_forall₂ h.isField fun _ _ hf => hf.1

theorem FieldsOf.wire_ne (h : run.FieldsOf required optional fields) {tag : String}
    (htag : tag ∉ (required ++ optional).map Prod.fst) : ∀ f ∈ fields, f.wire ≠ tag := by
  rintro f hf rfl
  exact htag (h.map_wire ▸ List.mem_map_of_mem hf)

theorem FieldsOf.exists_required (h : run.FieldsOf required optional fields) {f : Field}
    (hf : f ∈ fields) (habsent : f.mayBeAbsent = false) : ∃ e ∈ required, f.wire = e.1 := by
  obtain ⟨first, second, rfl, hfirst, hsecond⟩ := h
  rcases List.mem_append.1 hf with hf | hf
  · obtain ⟨e, he, hfield, -⟩ := exists_of_mem_right hfirst hf
    exact ⟨e, he, hfield.1⟩
  · obtain ⟨e, -, -, hpresent⟩ := exists_of_mem_right hsecond hf
    cases habsent.symm.trans hpresent

theorem FieldsOf.exists_field (h : run.FieldsOf required optional fields) {e : String × Node}
    (he : e ∈ required) : ∃ f ∈ fields, f.wire = e.1 ∧ f.mayBeAbsent = false := by
  obtain ⟨first, second, rfl, hfirst, -⟩ := h
  obtain ⟨f, hf, hfield, habsent⟩ := exists_of_mem_left hfirst he
  exact ⟨f, List.mem_append_left _ hf, hfield.1, habsent⟩

end

/-! ## Declarations of nodes -/

/-- The type of a branch is declared as the struct of its node with the tag in front. -/
def IsVariant (run : Run) (tag : String) (e : String × Node) (v : String × String) : Prop :=
  ∃ info required optional additional header name union fields base,
    e.2 = .properties info required optional additional ∧
    tag ∉ (required ++ optional).map Prod.fst ∧ run.FieldsOf required optional fields ∧
    run.env.lookup v.2 =
      some (.struct header (Branch.field ⟨union, tag, e.1⟩ name :: fields) base additional)

theorem IsVariant.exists_struct {tag : String} {e : String × Node} {v : String × String}
    (h : run.IsVariant tag e v) : ∃ header fields base additional,
      run.env.lookup v.2 = some (.struct header fields base additional) := by
  obtain ⟨_, _, _, additional, header, _, _, _, base, -, -, -, hd⟩ := h
  exact ⟨header, _, base, additional, hd⟩

/-- What is declared for a node, in terms of the types of the nodes below it. -/
inductive Declared (run : Run) : Node → Declaration → Prop
  | enum {info : Info} {values : List String} {header : Header} {members : List (String × String)}
      (hvalues : members.map Prod.snd = values) :
      Declared run (.enum info values) (.enum header members)
  | struct {info : Info} {required optional : List (String × Node)} {header : Header}
      {fields : List Field} {base : Option String} {additional : Bool}
      (hfields : run.FieldsOf required optional fields) :
      Declared run (.properties info required optional additional)
        (.struct header fields base additional)
  | union {info : Info} {tag : String} {mapping : List (String × Node)} {header : Header}
      {tagName tagWire : String} {variants : List (String × String)}
      (hvariants : List.Forall₂ (run.IsVariant tag) mapping variants) :
      Declared run (.discriminator info tag mapping) (.union header tagName tagWire variants)
  | synonym {n : Node} {null : Bool} {core t : TypeExpr} {header : Header}
      (hnamed : n.isNamed = false) (hn : run.Types n null core)
      (ht : t = core ∨ t.Wraps null core) :
      Declared run n (.synonym header t)

theorem fieldsOf_of_mapsNode {info : Info} {rest : List Declaration} (hs : run.Has s)
    (hn : (Node.properties info required optional additional).Sound run.schema.names p)
    (h : MapsNode s (.properties info required optional additional) null core (d :: rest))
    (hrest : rest ⊆ run.declarations) :
    ∃ name fields, run.names.typeName info.path = .ok name ∧ core = .named name ∧
      d = .struct ⟨name, info.path.text, info.description⟩ fields none additional ∧
      run.FieldsOf required optional fields := by
  cases hn with
  | properties hpath hkeys hrequired hoptional =>
    cases h with
    | properties hfirst hsecond hname =>
      rw [List.append_subset] at hrest
      refine ⟨_, _, hs.names ▸ hname, rfl, rfl, _, _, rfl, ?_, ?_⟩
      · exact isField_of_mapFields (hs.container false) hfirst
          (fun e he => ⟨_, hrequired e he⟩) hrest.1
      · exact isField_of_mapFields (hs.container false) hsecond
          (fun e he => ⟨_, hoptional e he⟩) hrest.2

theorem isVariant_of_mapBranch {union tag value name : String} (hs : run.Has s)
    (hn : n.Sound run.schema.names p) (hbranch : n.IsBranch tag)
    (h : mapBranch s ⟨union, tag, value⟩ n = .ok own) (hname : s.names.typeName n.path = .ok name)
    (hown : own ⊆ run.declarations) : run.IsVariant tag (value, n) (value, name) := by
  obtain ⟨info, required, optional, additional, rfl, -, htag⟩ := hbranch
  obtain ⟨tagName, null, core, header, fields, additional', rest, -, -, hmaps, rfl⟩ :=
    mapBranch_eq_ok.1 h
  rw [List.cons_subset] at hown
  obtain ⟨name', fields', hname', -, hd, hfields⟩ := fieldsOf_of_mapsNode hs hn hmaps hown.2
  cases hd
  obtain rfl := Except.ok.inj ((hs.names ▸ hname).symm.trans hname')
  exact ⟨info, required, optional, additional, _, _, _, _, _, rfl, htag, hfields,
    lookup_env hown.1⟩

/-- A node that declares a type has that type, and it is declared. -/
theorem Types.exists_declared (h : run.Types n null core) (hnamed : n.isNamed = true) :
    core.kind = .named ∧ run.names.typeName n.path = .ok core.name ∧
      ∃ d, run.env.lookup core.name = some d ∧ run.Declared n d := by
  obtain ⟨s, p, own, hs, hn, hmaps, hown⟩ := h
  cases hmaps with
  | @enum info values name members hname hmembers =>
    have hvalues : members.map Prod.snd = values.map id :=
      map_eq_of_forall₂ hmembers fun _ _ h => h.1
    rw [List.map_id] at hvalues
    exact ⟨rfl, hs.names ▸ hname, _, lookup_env (hown List.mem_cons_self), .enum hvalues⟩
  | properties hfirst hsecond hname =>
    rw [List.cons_subset] at hown
    obtain ⟨name, fields, hname', -, hd, hfields⟩ :=
      fieldsOf_of_mapsNode hs hn (.properties hfirst hsecond hname) hown.2
    cases hd
    exact ⟨rfl, hname', _, lookup_env hown.1, .struct hfields⟩
  | @discriminator info tag mapping name field variants ds hfield hname hvariants hbranches =>
    rw [List.cons_subset] at hown
    refine ⟨rfl, hs.names ▸ hname, _, lookup_env hown.1, .union ?_⟩
    obtain ⟨results, hresults, rfl⟩ := mapBranches_eq_ok.1 hbranches
    cases hn with
    | discriminator hpath hkeys hmapping hbranch =>
      refine forall₂_imp_mem hvariants fun e he v _ hv => ?_
      obtain ⟨own, hown', hmap⟩ := exists_of_mem_left hresults he
      have hsub : own ⊆ run.declarations :=
        List.Subset.trans (List.sublist_flatten_of_mem hown').subset hown.2
      exact isVariant_of_mapBranch hs (hmapping e he) (hbranch e he) hmap hv.2 hsub
  | empty | ref | type | elements | values => cases hnamed

/-- A body is declared under its identifier. -/
theorem exists_types_body {body : Node} {id : String}
    (hb : (body, id) ∈ bodies run.names run.schema) :
    ∃ null core, run.Types body null core ∧
      ((body.isNamed = true ∧ core.kind = .named ∧ core.name = id) ∨
        body.isNamed = false ∧ ∃ header t, run.env.lookup id = some (.synonym header t) ∧
          (t = core ∨ t.Wraps null core)) := by
  obtain ⟨own, ⟨s, null, core, t, inner, hbackend, hnames, hschema, hmaps, ht, rfl⟩, hown⟩ :=
    run.mapped _ hb
  obtain ⟨p, hp⟩ := sound_of_mem_bodies run.sound run.suits hb
  rw [List.append_subset] at hown
  have htypes : run.Types body null core :=
    ⟨s, p, inner, ⟨hbackend, hnames, hschema⟩, hp, hmaps, hown.1⟩
  refine ⟨null, core, htypes, ?_⟩
  cases hnamed : body.isNamed with
  | true =>
    obtain ⟨hkind, hname, -⟩ := htypes.exists_declared hnamed
    have hid := own_of_mem_bodies run.sound run.suits hb hnamed
    exact .inl ⟨rfl, hkind, Except.ok.inj (hname.symm.trans hid)⟩
  | false =>
    rw [aliasOf, hnamed] at hown
    refine .inr ⟨rfl, _, t, lookup_env (hown.2 List.mem_cons_self), ?_⟩
    rcases ht with rfl | rfl
    · exact .inl rfl
    · exact .inr htypes.wraps_nullIf

theorem Types.exists_body {info : Info} {target : String}
    (h : run.Types (.ref info target) null core) :
    ∃ body id, run.schema.definition? target = some body ∧
      (body, id) ∈ bodies run.names run.schema ∧ core.kind = .named ∧ core.name = id := by
  obtain ⟨s, p, own, hs, hn, hmaps, -⟩ := h
  cases hn with
  | ref hpath htarget =>
    cases hmaps with
    | ref hid hnull =>
      obtain ⟨body, hbody⟩ := exists_lookup_of_mem_keys htarget
      obtain ⟨id, hid', hb⟩ := exists_body_of_definition run.sound run.suits (mem_of_lookup hbody)
      exact ⟨body, id, hbody, hb, rfl, Except.ok.inj ((hs.names ▸ hid).symm.trans hid')⟩

/-- The type of a node that is declared somewhere is declared for the node or for the definition it
refers to. -/
theorem Types.exists_declared_of_named (h : run.Types n null core) (hkind : core.kind = .named) :
    ∃ m d, run.env.lookup core.name = some d ∧ run.Declared m d ∧
      ∀ reads v, run.schema.Accepts reads m v → run.schema.Accepts reads n v := by
  cases hnamed : n.isNamed with
  | true =>
    obtain ⟨-, -, d, hd, hdeclared⟩ := h.exists_declared hnamed
    exact ⟨n, d, hd, hdeclared, fun _ _ hv => hv⟩
  | false =>
    cases n with
    | ref info target =>
      obtain ⟨body, id, hbody, hb, -, rfl⟩ := h.exists_body
      refine ⟨body, ?_⟩
      obtain ⟨null', core', htypes, ⟨hnamed', -, hname⟩ | ⟨hnamed', header, t, hd, ht⟩⟩ :=
        exists_types_body hb
      · obtain ⟨-, -, d, hd, hdeclared⟩ := htypes.exists_declared hnamed'
        exact ⟨d, hname ▸ hd, hdeclared, fun _ _ hv => .ref hbody hv⟩
      · exact ⟨_, hd, .synonym hnamed' htypes ht, fun _ _ hv => .ref hbody hv⟩
    | enum | properties | discriminator => cases hnamed
    | empty | type | elements | values =>
      obtain ⟨s, p, own, -, -, hmaps, -⟩ := h
      cases hmaps
      cases hkind

/-! ## From nodes to types -/

variable {reads : Primitive → Json → Prop} {spelled : String → Json → Prop}

theorem FieldsOf.fits (h : run.FieldsOf required optional fields) {P : TypeExpr → Json → Prop}
    {members : List (String × Json)} (hpresent : ∀ e ∈ required, e.1 ∈ Json.keys members)
    (hmembers : ∀ e ∈ required ++ optional, ∀ v, Json.get? members e.1 = some v →
      ∀ f, run.IsField e f → P f.type v) (hknown : additional = false → ∀ key ∈ Json.keys members,
      key ∈ (required ++ optional).map Prod.fst) : Fits P fields additional members where
  present f hf habsent := by
    obtain ⟨e, he, hwire⟩ := h.exists_required hf habsent
    exact hwire ▸ hpresent e he
  types f hf v hv := by
    obtain ⟨e, he, hfield⟩ := exists_of_mem_right h.isField hf
    exact hmembers e he v (hfield.1 ▸ hv) f hfield
  known := h.map_wire ▸ hknown

/-- What a node accepts its type admits.  For the nodes of branches, whose types have a tag besides,
the members are said to fit the fields. -/
theorem admits_of_accepts (hreads : ∀ p v, reads p v → spelled (run.backend.target.spelling p) v)
    (h : run.schema.Accepts reads n v) :
    (∀ null core, run.Types n null core →
      Admits run.env spelled core v ∨ (null = true ∧ v = .null)) ∧
    ∀ info required optional additional fields members,
      n = .properties info required optional additional → v = .object members →
      run.FieldsOf required optional fields →
      Fits (Admits run.env spelled) fields additional members := by
  induction h with
  | @null n hnull =>
    refine ⟨fun null core htypes => .inr ⟨?_, rfl⟩, by simp⟩
    rw [htypes.null_eq, Schema.chainNullable_iff]
    exact ⟨[], .here hnull⟩
  | empty =>
    refine ⟨fun null core ⟨s, p, own, hs, hn, hmaps, hown⟩ => ?_, by simp⟩
    cases hmaps
    exact .inl (.any rfl)
  | @ref info target body v hbody _ ih =>
    refine ⟨fun null core htypes => ?_, by simp⟩
    have hnull := htypes.null_eq
    obtain ⟨body', id, hbody', hb, hkind, hname⟩ := htypes.exists_body
    obtain rfl := Option.some.inj (hbody.symm.trans hbody')
    obtain ⟨null', core', htypes', hdeclared⟩ := exists_types_body hb
    rw [Schema.chainNullable_ref hbody, ← htypes'.null_eq] at hnull
    -- Null that the body accepts is not in its declaration: the reference adds it.
    rcases ih.1 null' core' htypes' with hv | ⟨rfl, rfl⟩
    · refine .inl ?_
      rcases hdeclared with ⟨-, hkind', hname'⟩ | ⟨-, header, t, hd, ht⟩
      · exact hv.of_named hkind' hkind (hname.trans hname'.symm)
      · refine .synonym hkind (hname ▸ hd) ?_
        rcases ht with rfl | ht
        · exact hv
        · exact ht.admits_iff.2 (.inl hv)
    · exact .inr ⟨hnull.trans (Bool.or_true _), rfl⟩
  | type hv =>
    refine ⟨fun null core ⟨s, p, own, hs, hn, hmaps, hown⟩ => ?_, by simp⟩
    cases hmaps
    rw [hs.backend]
    exact .inl (.primitive rfl (hreads _ _ hv))
  | enum hvalue =>
    refine ⟨fun null core htypes => .inl ?_, by simp⟩
    obtain ⟨hkind, -, d, hd, hdeclared⟩ := htypes.exists_declared rfl
    cases hdeclared with
    | enum hvalues =>
      obtain ⟨member, hmember, rfl⟩ := List.mem_map.1 (hvalues ▸ hvalue)
      exact .enum hkind hd hmember
    | synonym hnamed => cases hnamed
  | elements _ ih =>
    refine ⟨fun null core ⟨s, p, own, hs, hn, hmaps, hown⟩ => .inl ?_, by simp⟩
    cases hn with
    | elements hpath hitem =>
      cases hmaps with
      | elements hmap =>
        obtain ⟨null', core', htypes, rfl⟩ := exists_types (hs.container true) hitem hmap hown
        refine .array rfl rfl fun v hv => ?_
        exact htypes.wraps_nullIf.admits_iff.2 ((ih v hv).1 null' core' htypes)
  | values _ ih =>
    refine ⟨fun null core ⟨s, p, own, hs, hn, hmaps, hown⟩ => .inl ?_, by simp⟩
    cases hn with
    | values hpath hitem =>
      cases hmaps with
      | values hmap =>
        obtain ⟨null', core', htypes, rfl⟩ := exists_types (hs.container true) hitem hmap hown
        refine .map rfl rfl fun m hm => ?_
        exact htypes.wraps_nullIf.admits_iff.2 ((ih m hm).1 null' core' htypes)
  | @properties info required optional additional members hpresent _ hknown ih =>
    have hfits : ∀ fields, run.FieldsOf required optional fields →
        Fits (Admits run.env spelled) fields additional members := by
      intro fields hfields
      refine hfields.fits hpresent (fun e he v hv f hfield => ?_) hknown
      obtain ⟨-, null', core', htypes, hwraps⟩ := hfield
      exact hwraps.admits_iff.2 ((ih e he v hv).1 null' core' htypes)
    constructor
    · intro null core htypes
      obtain ⟨hkind, -, d, hd, hdeclared⟩ := htypes.exists_declared rfl
      cases hdeclared with
      | struct hfields =>
        obtain ⟨hpresent', hmembers', hknown'⟩ := hfits _ hfields
        exact .inl (.struct hkind hd hpresent' hmembers' hknown')
      | synonym hnamed => cases hnamed
    · intro info' required' optional' additional' fields members' heq hv hfields
      cases heq
      cases hv
      exact hfits fields hfields
  | @discriminator info tag value mapping branch members htag hbranch _ ih =>
    refine ⟨fun null core htypes => .inl ?_, by simp⟩
    obtain ⟨hkind, -, d, hd, hdeclared⟩ := htypes.exists_declared rfl
    cases hdeclared with
    | union hvariants =>
      obtain ⟨variant, hvariant, info, required, optional, additional, header, name, union, fields,
        base, heq, hnotag, hfields, hd'⟩ := exists_of_mem_left hvariants hbranch
      refine .union hkind hd hvariant ?_
      have hrest := ih.2 info required optional additional fields _ heq rfl hfields
      obtain ⟨hpresent, hmembers, hknown⟩ := Fits.cons (f := Branch.field ⟨union, tag, value⟩ name)
        hrest (hfields.wire_ne hnotag) htag (.literal rfl)
      exact .struct rfl hd' hpresent hmembers hknown
    | synonym hnamed => cases hnamed

/-! ## From types to nodes -/

/-- Every node that has the type, with or without null, accepts the value. -/
def Accepted (run : Run) (reads : Primitive → Json → Prop) (t : TypeExpr) (v : Json) : Prop :=
  ∀ n null core, run.Types n null core → (t = core ∨ t.Wraps null core) →
    run.schema.Accepts reads n v

theorem FieldsOf.accepts (h : run.FieldsOf required optional fields)
    {members : List (String × Json)} (hfits : Fits (run.Accepted reads) fields additional members)
    (info : Info) :
    run.schema.Accepts reads (.properties info required optional additional) (.object members) := by
  refine .properties ?_ ?_ ?_
  · intro e he
    obtain ⟨f, hf, hwire, habsent⟩ := h.exists_field he
    exact hwire ▸ hfits.present f hf habsent
  · intro e he v hv
    obtain ⟨f, hf, hwire, null, core, htypes, hwraps⟩ := exists_of_mem_left h.isField he
    exact hfits.types f hf v (hwire ▸ hv) e.2 null core htypes (.inr hwraps)
  · exact h.map_wire ▸ hfits.known

theorem accepted_of_kind (hkind : t.kind ≠ .optional)
    (h : ∀ n null, run.Types n null t → run.schema.Accepts reads n v) : run.Accepted reads t v := by
  intro n null core htypes ht
  rcases ht with rfl | ⟨-, rfl⟩ | ⟨hoptional, -⟩
  · exact h n null htypes
  · exact h n null htypes
  · exact absurd hoptional hkind

theorem accepted_of_declared (hkind : t.kind = .named) (hd : run.env.lookup t.name = some d)
    (h : ∀ n, run.Declared n d → run.schema.Accepts reads n v) : run.Accepted reads t v := by
  refine accepted_of_kind (by simp [hkind]) fun n null htypes => ?_
  obtain ⟨m, d', hd', hdeclared, haccepts⟩ := htypes.exists_declared_of_named hkind
  cases hd.symm.trans hd'
  exact haccepts _ _ (h m hdeclared)

/-- What a type admits all nodes accept that have the type.  The struct of a branch admits objects
with the tag whose other members the node of the branch accepts. -/
theorem accepts_of_admits (hspelled : ∀ p v, spelled (run.backend.target.spelling p) v → reads p v)
    (h : Admits run.env spelled t v) :
    run.Accepted reads t v ∧
    ∀ tag e w, t.kind = .named → t.name = w.2 → run.IsVariant tag e w →
      ∃ members, v = .object members ∧ Json.get? members tag = some (.string e.1) ∧
        run.schema.Accepts reads e.2 (.object (members.filter fun m => m.1 ≠ tag)) := by
  induction h with
  | any hkind =>
    refine ⟨accepted_of_kind (by simp [hkind]) fun n null ⟨s, p, own, hs, hn, hmaps, hown⟩ => ?_,
      by simp [hkind]⟩
    cases hmaps with
    | empty => exact .empty
    | ref | type | enum | elements | values | properties | discriminator => cases hkind
  | primitive hkind hv =>
    refine ⟨accepted_of_kind (by simp [hkind]) fun n null ⟨s, p, own, hs, hn, hmaps, hown⟩ => ?_,
      by simp [hkind]⟩
    cases hmaps with
    | type info p => exact .type (hspelled p _ (hs.backend ▸ hv))
    | empty | ref | enum | elements | values | properties | discriminator => cases hkind
  | literal hkind =>
    refine ⟨accepted_of_kind (by simp [hkind]) fun n null ⟨s, p, own, hs, hn, hmaps, hown⟩ => ?_,
      by simp [hkind]⟩
    cases hmaps <;> cases hkind
  | array hkind hinner _ ih =>
    refine ⟨accepted_of_kind (by simp [hkind]) fun n null ⟨s, p, own, hs, hn, hmaps, hown⟩ => ?_,
      by simp [hkind]⟩
    cases hmaps with
    | elements hmap =>
      cases hinner
      cases hn with
      | elements hpath hitem =>
        obtain ⟨null', core', htypes, rfl⟩ := exists_types (hs.container true) hitem hmap hown
        exact .elements fun v hv => (ih v hv).1 _ null' core' htypes (.inr htypes.wraps_nullIf)
    | empty | ref | type | enum | values | properties | discriminator => cases hkind
  | map hkind hinner _ ih =>
    refine ⟨accepted_of_kind (by simp [hkind]) fun n null ⟨s, p, own, hs, hn, hmaps, hown⟩ => ?_,
      by simp [hkind]⟩
    cases hmaps with
    | values hmap =>
      cases hinner
      cases hn with
      | values hpath hitem =>
        obtain ⟨null', core', htypes, rfl⟩ := exists_types (hs.container true) hitem hmap hown
        exact .values fun m hm => (ih m hm).1 _ null' core' htypes (.inr htypes.wraps_nullIf)
    | empty | ref | type | enum | elements | properties | discriminator => cases hkind
  | null hkind hnull =>
    refine ⟨fun n null core htypes ht => ?_, by simp [hkind]⟩
    have hnull' : null = true := by
      rcases ht with rfl | ⟨-, rfl⟩ | ⟨-, -, rfl⟩
      · exact absurd hkind htypes.kind_ne_optional
      · exact absurd hkind htypes.kind_ne_optional
      · exact hnull
    rw [htypes.null_eq, Schema.chainNullable_iff] at hnull'
    obtain ⟨ts, hchain⟩ := hnull'
    exact hchain.accepts
  | optional hkind hinner _ ih =>
    refine ⟨fun n null core htypes ht => ?_, by simp [hkind]⟩
    rcases ht with rfl | ⟨-, rfl⟩ | ⟨-, hargs, -⟩
    · exact absurd hkind htypes.kind_ne_optional
    · exact absurd hkind htypes.kind_ne_optional
    · rw [TypeExpr.inner, hargs] at hinner
      exact ih.1 n null core htypes (.inl (Except.ok.inj hinner).symm)
  | enum hkind hd hmember =>
    refine ⟨accepted_of_declared hkind hd fun n hn => ?_, fun tag e w _ hname hvariant => ?_⟩
    · cases hn with
      | enum hvalues => exact .enum (hvalues ▸ List.mem_map_of_mem hmember)
    · obtain ⟨_, _, _, _, hd'⟩ := hvariant.exists_struct
      cases hd.symm.trans (hname ▸ hd')
  | synonym hkind hd _ ih =>
    refine ⟨accepted_of_declared hkind hd fun n hn => ?_, fun tag e w _ hname hvariant => ?_⟩
    · cases hn with
      | synonym _ htypes ht => exact ih.1 n _ _ htypes ht
    · obtain ⟨_, _, _, _, hd'⟩ := hvariant.exists_struct
      cases hd.symm.trans (hname ▸ hd')
  | struct hkind hd hpresent hmembers hknown ih =>
    refine ⟨accepted_of_declared hkind hd fun n hn => ?_, fun tag e w _ hname hvariant => ?_⟩
    · cases hn with
      | struct hfields =>
        exact hfields.accepts ⟨hpresent, fun f hf v hv => (ih f hf v hv).1, hknown⟩ _
    · obtain ⟨info, required, optional, additional, header, name, union, fields, base, heq, hnotag,
        hfields, hd'⟩ := hvariant
      cases hd.symm.trans (hname ▸ hd')
      -- The tag in front is always there and fixes the value; the node knows the other fields.
      obtain ⟨v, hv⟩ := Json.mem_keys_iff.1 (hpresent _ List.mem_cons_self rfl)
      have hliteral := admits_literal_iff.1 (hmembers _ List.mem_cons_self v hv)
      refine ⟨_, rfl, hliteral ▸ hv, ?_⟩
      rw [heq]
      exact hfields.accepts (Fits.tail ⟨hpresent, fun f hf v hv => (ih f hf v hv).1, hknown⟩
        (hfields.wire_ne hnotag)) info
  | union hkind hd hvariant _ ih =>
    refine ⟨accepted_of_declared hkind hd fun n hn => ?_, fun tag e w _ hname hvariant' => ?_⟩
    · cases hn with
      | union hvariants =>
        obtain ⟨e, he, hvariant'⟩ := exists_of_mem_right hvariants hvariant
        obtain ⟨members, rfl, htag, haccepts⟩ := ih.2 _ e _ rfl rfl hvariant'
        exact .discriminator htag he haccepts
    · obtain ⟨_, _, _, _, hd'⟩ := hvariant'.exists_struct
      cases hd.symm.trans (hname ▸ hd')

end Run

/-! ## The meaning of schemas -/

/-- A type, with null added or not, means what a node means.  It admits what the node accepts if the
spellings of the primitive types are read no narrower than the types, and the node accepts what it
admits if they are read no wider. -/
def SameMeaning (target : Target) (schema : Schema) (env : List (String × Declaration)) (n : Node)
    (null : Bool) (t : TypeExpr) : Prop :=
  ∀ (reads : Primitive → Json → Prop) (spelled : String → Json → Prop),
    ((∀ p v, reads p v → spelled (target.spelling p) v) →
      ∀ v, schema.Accepts reads n v → Admits env spelled t v ∨ (null = true ∧ v = .null)) ∧
    ((∀ p v, spelled (target.spelling p) v → reads p v) →
      ∀ v, Admits env spelled t v ∨ (null = true ∧ v = .null) → schema.Accepts reads n v)

theorem Run.Types.sameMeaning {run : Run} {n : Node} {null : Bool} {core : TypeExpr}
    (h : run.Types n null core) :
    SameMeaning run.backend.target run.schema run.env n null core := by
  intro reads spelled
  refine ⟨fun hreads v hv => (run.admits_of_accepts hreads hv).1 null core h, ?_⟩
  intro hspelled v hv
  have hadmits := h.wraps_nullIf.admits_iff.2 hv
  exact (run.accepts_of_admits hspelled hadmits).1 n null core h (.inr h.wraps_nullIf)

section

variable {target : Target} {schema : Schema} {env : List (String × Declaration)} {n : Node}
  {null : Bool} {t : TypeExpr}

theorem SameMeaning.nullIf (h : SameMeaning target schema env n null t)
    (ht : t.kind ≠ .optional) : SameMeaning target schema env n false (t.nullIf null) := by
  intro reads spelled
  simp only [(TypeExpr.wraps_nullIf ht null).admits_iff, Bool.false_eq_true, false_and, or_false]
  exact h reads spelled

/-- A definition means what a reference to it means. -/
theorem SameMeaning.of_ref {info : Info} {name id : String} {definition : Option String}
    {byReference : Bool} {body : Node}
    (h : SameMeaning target schema env (.ref info name) null (.named id definition byReference))
    (hinfo : info.nullable = false) (hbody : schema.definition? name = some body) :
    SameMeaning target schema env body null (.named id) := by
  intro reads spelled
  obtain ⟨hforward, hbackward⟩ := h reads spelled
  constructor
  · intro hreads v hv
    exact (hforward hreads v (.ref hbody hv)).imp_left fun hv => hv.of_named rfl rfl rfl
  · intro hspelled v hv
    have hv := hbackward hspelled v (hv.imp_left fun hv => hv.of_named rfl rfl rfl)
    cases hv with
    | null hnull => cases hinfo.symm.trans hnull
    | ref hbody' hv =>
      cases hbody.symm.trans hbody'
      exact hv

end

/-- The mapping preserves meaning.  It succeeds, the type of the root means what the root means, and
what is declared for a definition means, but for null, what the definition means. -/
theorem mapSchema_preserves_meaning {document : Json} {schema : Schema} {rules : Naming.Rules}
    {rootName : Json} {names : Naming.Table} (hdistinct : document.Distinct)
    (hresolve : Schema.resolve document = .ok schema)
    (hassign : Naming.assign rules schema rootName = .ok names) (target : Target)
    (graph : ReferenceGraph) :
    ∃ m, mapSchema { target.backend with rules := rules } names schema graph = .ok m ∧
      SameMeaning target schema (Declaration.byName m.declarations) schema.root false m.rootType ∧
      ∀ name body, schema.definition? name = some body → ∃ id null,
        names.definition name = .ok id ∧ schema.isNullable name = .ok null ∧
        SameMeaning target schema (Declaration.byName m.declarations) body null (.named id) := by
  have hsound := Schema.sound_of_resolve hdistinct hresolve
  have hsuits := Naming.Table.suits_of_assign hassign
  have hbackend := target.complete_backend rules
  obtain ⟨m, h⟩ := exists_mapSchema hbackend hsound hsuits graph
  let run := Run.ofMapSchema hbackend hsound hassign h
  have hscope : ∀ owner, run.Has
      { backend := run.backend, names, schema, graph, owner, inContainer := false } :=
    fun owner => ⟨rfl, rfl, rfl⟩
  refine ⟨m, h, ?_, ?_⟩
  · obtain ⟨dss, t, rest, -, hroot, hm⟩ := mapSchema_eq_ok.1 h
    obtain ⟨inner, hnode, rfl⟩ := mapRoot_eq_ok.1 hroot
    have hown : inner ⊆ run.declarations := fun d hd => by
      show d ∈ m.declarations
      rw [hm]
      exact List.mem_append_right _ (List.mem_append_left _ hd)
    obtain ⟨null, core, htypes, rfl⟩ := Run.exists_types (hscope none) hsound.root hnode hown
    rw [show m.rootType = core.nullIf null by rw [hm]]
    exact htypes.sameMeaning.nullIf htypes.kind_ne_optional
  · intro name body hbody
    obtain ⟨id, hid, -⟩ := exists_body_of_definition hsound hsuits (mem_of_lookup hbody)
    have hnull := Schema.isNullable_of_definition hbody
    refine ⟨id, _, hid, hnull, ?_⟩
    have hmem : name ∈ schema.names := List.mem_map_of_mem (f := Prod.fst) (mem_of_lookup hbody)
    have htypes : run.Types (.ref ⟨.root, false, none, []⟩ name) _ _ :=
      ⟨_, _, [], hscope none, .ref rfl hmem, .ref hid hnull, List.nil_subset _⟩
    exact htypes.sameMeaning.of_ref rfl hbody

theorem mapSchema_preserves_meaning_sketch :
    Naming.sketchDocument.Distinct ∧
      Schema.resolve Naming.sketchDocument = .ok Naming.sketchSchema ∧
      Naming.assign Naming.sketchRules Naming.sketchSchema (.string "sketch") =
        .ok Naming.sketchNames ∧
      ∃ m, mapSchema { Target.go.backend with rules := Naming.sketchRules } Naming.sketchNames
          Naming.sketchSchema (.ofSchema Naming.sketchSchema) = .ok m ∧
        ∀ spelled,
          Admits (Declaration.byName m.declarations) spelled m.rootType
            (.object [("kind", .string "dot"), ("tint", .null)]) ∧
          ¬ Admits (Declaration.byName m.declarations) spelled m.rootType
            (.object [("kind", .string "dot")]) := by
  refine ⟨Naming.distinct_sketch, Naming.resolve_sketch, Naming.assign_sketch, ?_⟩
  obtain ⟨m, hm, hroot, -⟩ := mapSchema_preserves_meaning Naming.distinct_sketch
    Naming.resolve_sketch Naming.assign_sketch .go (.ofSchema Naming.sketchSchema)
  refine ⟨m, hm, fun spelled => ?_⟩
  obtain ⟨hforward, hbackward⟩ := hroot (fun p v => spelled (Target.go.spelling p) v) spelled
  constructor
  · refine (hforward (fun _ _ hv => hv) _ ?_).resolve_right (by simp)
    refine .discriminator rfl List.mem_cons_self (.properties ?_ ?_ ?_)
    · simp [Json.keys]
    · intro e he v hv
      obtain rfl := List.mem_singleton.1 he
      cases hv
      -- The tint is null because the color that its shade refers to may be.
      exact .ref rfl (.ref rfl (.null rfl))
    · simp [Json.keys]
  · intro h
    have haccepts := hbackward (fun _ _ hv => hv) _ (.inl h)
    cases haccepts with
    | discriminator htag hbranch hrest =>
      cases htag
      rcases List.mem_cons.1 hbranch with heq | hother
      · cases heq
        cases hrest with
        | properties hpresent =>
          have htint := hpresent _ List.mem_cons_self
          simp [Json.keys] at htint
      · simp at hother

end Typegen.Mapping
