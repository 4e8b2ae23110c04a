import Typegen.Mapping
import Typegen.Proofs.TypeNames

/-!
# How nodes are mapped

The mapping of a node taken apart, for backends that express every form and every primitive type.
`MapsNode` is one step of it: the type of a node before null is added, whether null is added, and
the declarations, in terms of the mapping of the nodes directly below.  `mapFields_eq_ok` and
`mapBranches_eq_ok` do the same for lists of nodes, and `mapSchema_eq_ok` for a whole schema.  With
a table that suits the schema the mapping always succeeds.
-/

namespace Typegen

/-- The backend can express every form and every primitive type. -/
structure Backend.Complete (b : Backend) : Prop where
  forms : ∀ f, f ∈ b.forms
  primitives : ∀ p, p ∈ b.primitives

theorem Schema.Form.mem_all (f : Schema.Form) : f ∈ Schema.Form.all := by
  cases f <;> decide

theorem Schema.Primitive.mem_all (p : Schema.Primitive) : p ∈ Schema.Primitive.all := by
  cases p <;> decide

theorem Target.complete_backend (t : Target) (rules : Naming.Rules) :
    ({ t.backend with rules := rules } : Backend).Complete :=
  ⟨Schema.Form.mem_all, Schema.Primitive.mem_all⟩

/-- The type with null added, if it is. -/
def TypeExpr.nullIf (null : Bool) (t : TypeExpr) : TypeExpr :=
  if null then t.withOptionality false true else t

theorem TypeExpr.nullIf_nullIf (null null' : Bool) {t : TypeExpr} (ht : t.kind ≠ .optional) :
    (t.nullIf null).nullIf null' = t.nullIf (null' || null) := by
  cases null <;> cases null' <;> simp [nullIf, withOptionality, ht]

namespace Mapping

open Schema (Node Info)

/-! ## One node -/

/-- Whether a reference is stored behind a reference of the target. -/
def Scope.byReference (s : Scope) (target : String) : Bool :=
  (match s.owner with
    | some owner => s.graph.inCycle owner target
    | none => false) && !s.inContainer

/-- One step of the mapping: whether null is added to the type, the type without it, and the
declarations. -/
inductive MapsNode (s : Scope) : Node → Bool → TypeExpr → List Declaration → Prop
  | empty (info : Info) :
      MapsNode s (.empty info) info.nullable (.any s.backend.target.anyType) []
  | ref {info : Info} {target id : String} {null : Bool}
      (hid : s.names.definition target = .ok id) (hnull : s.schema.isNullable target = .ok null) :
      MapsNode s (.ref info target) (info.nullable || null)
        (.named id (some target) (s.byReference target)) []
  | type (info : Info) (p : Schema.Primitive) :
      MapsNode s (.type info p) info.nullable
        (.primitive (s.backend.target.spelling p) (s.lossNote info p)) []
  | enum {info : Info} {values : List String} {name : String} {members : List (String × String)}
      (hname : s.names.typeName info.path = .ok name)
      (hmembers : List.Forall₂ (fun v m => m.2 = v ∧ s.names.enumMember info.path v = .ok m.1)
        values members) :
      MapsNode s (.enum info values) info.nullable (.named name)
        [.enum ⟨name, info.path.text, info.description⟩ members]
  | elements {info : Info} {item : Node} {t : TypeExpr} {ds : List Declaration}
      (hitem : mapNode { s with inContainer := true } item = .ok (t, ds)) :
      MapsNode s (.elements info item) info.nullable (.array t) ds
  | values {info : Info} {item : Node} {t : TypeExpr} {ds : List Declaration}
      (hitem : mapNode { s with inContainer := true } item = .ok (t, ds)) :
      MapsNode s (.values info item) info.nullable (.map t) ds
  | properties {info : Info} {required optional : List (String × Node)} {additional : Bool}
      {name : String} {first second : List Field} {nested more : List Declaration}
      (hfirst : mapFields { s with inContainer := false } info.path false required =
        .ok (first, nested))
      (hsecond : mapFields { s with inContainer := false } info.path true optional =
        .ok (second, more))
      (hname : s.names.typeName info.path = .ok name) :
      MapsNode s (.properties info required optional additional) info.nullable (.named name)
        (.struct ⟨name, info.path.text, info.description⟩ (first ++ second) none additional ::
          (nested ++ more))
  | discriminator {info : Info} {tag : String} {mapping : List (String × Node)} {name : String}
      {field : Naming.FieldName} {variants : List (String × String)} {ds : List Declaration}
      (hfield : s.names.tagField info.path = .ok field)
      (hname : s.names.typeName info.path = .ok name)
      (hvariants : List.Forall₂ (fun e v => v.1 = e.1 ∧ s.names.typeName e.2.path = .ok v.2)
        mapping variants)
      (hbranches : mapBranches s name tag mapping = .ok ds) :
      MapsNode s (.discriminator info tag mapping) info.nullable (.named name)
        (.union ⟨name, info.path.text, info.description⟩ field.identifier field.key variants :: ds)

section

variable {s : Scope} {ds : List Declaration} {n : Node} {t : TypeExpr} {info : Info}
  {d : Declaration}

theorem MapsNode.kind_ne_optional {null : Bool} {core : TypeExpr} (h : MapsNode s n null core ds) :
    core.kind ≠ .optional := by
  cases h <;> simp [TypeExpr.any, TypeExpr.named, TypeExpr.primitive, TypeExpr.array, TypeExpr.map]

theorem checkForm_eq_ok (hs : s.backend.Complete) (n : Node) : s.checkForm n = .ok () := by
  rw [Scope.checkForm, if_pos (List.contains_iff_mem.2 (hs.forms _))]

theorem mapPrimitive_eq_ok (hs : s.backend.Complete) (info : Info) (p : Schema.Primitive) :
    s.mapPrimitive info p =
      .ok (.primitive (s.backend.target.spelling p) (s.lossNote info p)) := by
  rw [Scope.mapPrimitive, if_pos (List.contains_iff_mem.2 (hs.primitives _))]

theorem mapRef_eq_ok {target : String} :
    s.mapRef target = .ok t ↔ ∃ id null, s.names.definition target = .ok id ∧
      s.schema.isNullable target = .ok null ∧
      t = (TypeExpr.named id (some target) (s.byReference target)).nullIf null := by
  simp only [Scope.mapRef, bind_eq_ok]
  constructor
  · rintro ⟨id, hid, null, hnull, h⟩
    refine ⟨id, null, hid, hnull, ?_⟩
    cases null <;> exact (pure_eq_ok.1 h).symm
  · rintro ⟨id, null, hid, hnull, rfl⟩
    refine ⟨id, hid, null, hnull, ?_⟩
    cases null <;> rfl

theorem enumDeclaration_eq_ok {values : List String} :
    s.enumDeclaration info values = .ok d ↔ ∃ name members,
      s.names.typeName info.path = .ok name ∧
      List.Forall₂ (fun v m => m.2 = v ∧ s.names.enumMember info.path v = .ok m.1)
        values members ∧
      d = .enum ⟨name, info.path.text, info.description⟩ members := by
  have hmapM : ∀ members, (values.mapM fun v => do
      return (← s.names.enumMember info.path v, v)) = .ok members ↔
      List.Forall₂ (fun v m => m.2 = v ∧ s.names.enumMember info.path v = .ok m.1)
        values members := by
    intro members
    rw [mapM_eq_ok]
    simp only [bind_mk_swap_eq_ok]
  simp only [Scope.enumDeclaration, bind_eq_ok, pure_eq_ok, hmapM]
  constructor
  · rintro ⟨name, hname, members, hmembers, rfl⟩
    exact ⟨name, members, hname, hmembers, rfl⟩
  · rintro ⟨name, members, hname, hmembers, rfl⟩
    exact ⟨name, hname, members, hmembers, rfl⟩

theorem unionDeclaration_eq_ok {mapping : List (String × Node)} :
    s.unionDeclaration info mapping = .ok d ↔ ∃ field name variants,
      s.names.tagField info.path = .ok field ∧ s.names.typeName info.path = .ok name ∧
      List.Forall₂ (fun e v => v.1 = e.1 ∧ s.names.typeName e.2.path = .ok v.2)
        mapping variants ∧
      d = .union ⟨name, info.path.text, info.description⟩ field.identifier field.key variants := by
  have hmapM : ∀ variants, (mapping.mapM fun e => do
      return (e.1, ← s.names.typeName e.2.path)) = .ok variants ↔
      List.Forall₂ (fun e v => v.1 = e.1 ∧ s.names.typeName e.2.path = .ok v.2)
        mapping variants := by
    intro variants
    rw [mapM_eq_ok]
    simp only [bind_mk_eq_ok]
  simp only [Scope.unionDeclaration, bind_eq_ok, pure_eq_ok, hmapM]
  constructor
  · rintro ⟨field, hfield, name, hname, variants, hvariants, rfl⟩
    exact ⟨field, name, variants, hfield, hname, hvariants, rfl⟩
  · rintro ⟨field, name, variants, hfield, hname, hvariants, rfl⟩
    exact ⟨field, hfield, name, hname, variants, hvariants, rfl⟩

theorem structDeclaration_eq_ok {branch : Option Branch} {fields : List Field} {additional : Bool} :
    structDeclaration s info branch fields additional = .ok d ↔ ∃ name,
      s.names.typeName info.path = .ok name ∧
      d = .struct ⟨name, info.path.text, info.description⟩ fields (branch.map (·.union))
        additional := by
  simp only [structDeclaration, bind_eq_ok, pure_eq_ok, @eq_comm _ d]

theorem exists_mapsNode (h : mapNode s n = .ok (t, ds)) (hs : s.backend.Complete) :
    ∃ null core, MapsNode s n null core ds ∧ t = core.nullIf null := by
  cases n with
  | empty info =>
    simp only [mapNode, checkForm_eq_ok hs, bind_eq_ok, pure_eq_ok, Prod.mk.injEq] at h
    obtain ⟨_, -, rfl, rfl⟩ := h
    exact ⟨_, _, .empty info, rfl⟩
  | ref info target =>
    simp only [mapNode, checkForm_eq_ok hs, bind_eq_ok, pure_eq_ok, mapRef_eq_ok,
      Prod.mk.injEq] at h
    obtain ⟨_, -, t', ⟨id, null, hid, hnull, rfl⟩, rfl, rfl⟩ := h
    have hmaps : MapsNode s (.ref info target) _ _ [] := .ref hid hnull
    exact ⟨_, _, hmaps, TypeExpr.nullIf_nullIf _ _ hmaps.kind_ne_optional⟩
  | type info p =>
    simp only [mapNode, checkForm_eq_ok hs, mapPrimitive_eq_ok hs, bind_eq_ok, pure_eq_ok,
      Except.ok.injEq, Prod.mk.injEq] at h
    obtain ⟨_, -, t', rfl, rfl, rfl⟩ := h
    exact ⟨_, _, .type info p, rfl⟩
  | enum info values =>
    simp only [mapNode, checkForm_eq_ok hs, enumDeclaration_eq_ok, bind_eq_ok, pure_eq_ok,
      Prod.mk.injEq] at h
    obtain ⟨_, -, d, ⟨name, members, hname, hmembers, rfl⟩, rfl, rfl⟩ := h
    exact ⟨_, _, .enum hname hmembers, rfl⟩
  | elements info item =>
    simp only [mapNode, checkForm_eq_ok hs, bind_eq_ok, pure_eq_ok, Prod.mk.injEq] at h
    obtain ⟨_, -, ⟨t', ds'⟩, hitem, rfl, rfl⟩ := h
    exact ⟨_, _, .elements hitem, rfl⟩
  | values info item =>
    simp only [mapNode, checkForm_eq_ok hs, bind_eq_ok, pure_eq_ok, Prod.mk.injEq] at h
    obtain ⟨_, -, ⟨t', ds'⟩, hitem, rfl, rfl⟩ := h
    exact ⟨_, _, .values hitem, rfl⟩
  | properties info required optional additional =>
    simp only [mapNode, checkForm_eq_ok hs, structDeclaration_eq_ok, bind_eq_ok, pure_eq_ok,
      Prod.mk.injEq] at h
    obtain ⟨_, -, ⟨first, nested⟩, hfirst, ⟨second, more⟩, hsecond, d, ⟨name, hname, rfl⟩, rfl,
      rfl⟩ := h
    exact ⟨_, _, .properties hfirst hsecond hname, rfl⟩
  | discriminator info tag mapping =>
    simp only [mapNode, checkForm_eq_ok hs, unionDeclaration_eq_ok, bind_eq_ok, pure_eq_ok,
      Prod.mk.injEq] at h
    obtain ⟨_, -, d, ⟨field, name, variants, hfield, hname, hvariants, rfl⟩, ds', hbranches, rfl,
      rfl⟩ := h
    exact ⟨_, _, .discriminator hfield hname hvariants hbranches, rfl⟩

theorem MapsNode.mapNode_eq {null : Bool} {core : TypeExpr} (h : MapsNode s n null core ds)
    (hs : s.backend.Complete) : mapNode s n = .ok (core.nullIf null, ds) := by
  have hkind := h.kind_ne_optional
  cases h with
  | empty info =>
    rw [mapNode, checkForm_eq_ok hs]
    rfl
  | ref hid hnull =>
    rw [mapNode, checkForm_eq_ok hs, mapRef_eq_ok.2 ⟨_, _, hid, hnull, rfl⟩,
      ← TypeExpr.nullIf_nullIf _ _ hkind]
    rfl
  | type info p =>
    rw [mapNode, checkForm_eq_ok hs, mapPrimitive_eq_ok hs]
    rfl
  | enum hname hmembers =>
    rw [mapNode, checkForm_eq_ok hs, enumDeclaration_eq_ok.2 ⟨_, _, hname, hmembers, rfl⟩]
    rfl
  | elements hitem | values hitem =>
    rw [mapNode, checkForm_eq_ok hs, hitem]
    rfl
  | properties hfirst hsecond hname =>
    simp only [mapNode, checkForm_eq_ok hs, bind_eq_ok, pure_eq_ok]
    exact ⟨(), trivial, _, hfirst, _, hsecond, _, structDeclaration_eq_ok.2 ⟨_, hname, rfl⟩, rfl⟩
  | discriminator hfield hname hvariants hbranches =>
    simp only [mapNode, checkForm_eq_ok hs, bind_eq_ok, pure_eq_ok]
    exact ⟨(), trivial, _, unionDeclaration_eq_ok.2 ⟨_, _, _, hfield, hname, hvariants, rfl⟩, _,
      hbranches, rfl⟩

/-! ## Lists of nodes -/

/-- The field of a key and the declarations that its type needs. -/
def MapsField (s : Scope) (path : Pointer) (isOptional : Bool) (e : String × Node)
    (r : Field × List Declaration) : Prop :=
  ∃ t name, mapNode s e.2 = .ok (t, r.2) ∧ s.names.fieldName path e.1 = .ok name ∧
    r.1 = { name := name.identifier, wire := e.1,
            type := if isOptional then t.withOptionality true false else t,
            required := !isOptional, description := e.2.description }

theorem mapFields_eq_ok {path : Pointer} {isOptional : Bool} {entries : List (String × Node)}
    {fields : List Field} :
    mapFields s path isOptional entries = .ok (fields, ds) ↔
      ∃ results, List.Forall₂ (MapsField s path isOptional) entries results ∧
        fields = results.map Prod.fst ∧ ds = results.flatMap Prod.snd := by
  induction entries generalizing fields ds with
  | nil =>
    simp only [mapFields, Except.ok.injEq, Prod.mk.injEq, List.forall₂_nil_left_iff,
      exists_eq_left, List.map_nil, List.flatMap_nil, eq_comm]
  | cons e rest ih =>
    simp only [mapFields, bind_eq_ok, pure_eq_ok, Prod.mk.injEq, List.forall₂_cons_left_iff]
    constructor
    · rintro ⟨⟨t, ds'⟩, hnode, name, hname, ⟨fields', nested⟩, hrest, rfl, rfl⟩
      obtain ⟨results, hresults, hfields, hnested⟩ := ih.1 hrest
      refine ⟨_, ⟨(_, ds'), results, ⟨t, name, hnode, hname, rfl⟩, hresults, rfl⟩, ?_, ?_⟩
      · rw [List.map_cons, ← hfields]
      · rw [List.flatMap_cons, ← hnested]
    · rintro ⟨_, ⟨⟨field, ds'⟩, results, ⟨t, name, hnode, hname, hfield⟩, hresults, rfl⟩, rfl, rfl⟩
      refine ⟨(t, ds'), hnode, name, hname, _, ih.2 ⟨results, hresults, rfl, rfl⟩, ?_, ?_⟩
      · rw [List.map_cons, hfield]
      · rw [List.flatMap_cons]

theorem mapBranches_eq_ok {union tag : String} {mapping : List (String × Node)} :
    mapBranches s union tag mapping = .ok ds ↔ ∃ results,
      List.Forall₂ (fun e ds => mapBranch s ⟨union, tag, e.1⟩ e.2 = .ok ds) mapping results ∧
      ds = results.flatten := by
  induction mapping generalizing ds with
  | nil =>
    simp only [mapBranches, Except.ok.injEq, List.forall₂_nil_left_iff, exists_eq_left,
      List.flatten_nil, eq_comm]
  | cons e rest ih =>
    simp only [mapBranches, bind_eq_ok, pure_eq_ok, List.forall₂_cons_left_iff]
    constructor
    · rintro ⟨ds', hbranch, others, hrest, rfl⟩
      obtain ⟨results, hresults, rfl⟩ := ih.1 hrest
      exact ⟨_, ⟨ds', results, hbranch, hresults, rfl⟩, rfl⟩
    · rintro ⟨_, ⟨ds', results, hbranch, hresults, rfl⟩, rfl⟩
      exact ⟨ds', hbranch, _, ih.2 ⟨results, hresults, rfl⟩, rfl⟩

/-- The tag field of a branch. -/
def Branch.field (branch : Branch) (name : String) : Field :=
  { name, wire := branch.tag, type := .literal branch.value, isTag := true,
    tagValue := some branch.value }

/-- A branch is declared like a struct of its own, with the tag in front of the fields and the union
as its base. -/
theorem mapBranch_eq_ok {branch : Branch} :
    mapBranch s branch n = .ok ds ↔ ∃ tagName null core header fields additional rest,
      n.form = .properties ∧ s.names.fieldName n.path branch.tag = .ok tagName ∧
      MapsNode s n null core (.struct header fields none additional :: rest) ∧
      ds = .struct header (branch.field tagName.identifier :: fields) (some branch.union)
        additional :: rest := by
  cases n with
  | properties info required optional additional =>
    simp only [mapBranch, Scope.tagField, structDeclaration_eq_ok, bind_eq_ok, pure_eq_ok]
    constructor
    · rintro ⟨f, ⟨tagName, htag, rfl⟩, ⟨first, nested⟩, hfirst, ⟨second, more⟩, hsecond, d,
        ⟨name, hname, rfl⟩, rfl⟩
      exact ⟨tagName, _, _, _, _, _, _, rfl, htag, .properties hfirst hsecond hname, rfl⟩
    · rintro ⟨tagName, null, core, header, fields, additional', rest, -, htag, hmaps, rfl⟩
      cases hmaps with
      | properties hfirst hsecond hname =>
        exact ⟨_, ⟨tagName, htag, rfl⟩, _, hfirst, _, hsecond, _, ⟨_, hname, rfl⟩, rfl⟩
  | _ =>
    constructor
    · intro h
      simp [mapBranch, Scope.unsupported] at h
    · rintro ⟨tagName, null, core, header, fields, additional, rest, hform, -⟩
      cases hform

/-! ## Definitions and the root -/

theorem unwrap_nullIf (null : Bool) (ht : t.kind ≠ .optional) : (t.nullIf null).unwrap = .ok t := by
  cases null <;>
    simp [TypeExpr.nullIf, TypeExpr.withOptionality, TypeExpr.unwrap, TypeExpr.inner, ht]

/-- The alias of a definition or root whose form declares nothing. -/
def aliasOf (id : String) (body : Node) (t : TypeExpr) : List Declaration :=
  if body.isNamed then [] else [.synonym ⟨id, body.path.text, body.description⟩ t]

theorem mapDefinition_eq_ok (hs : s.backend.Complete) {name : String} {body : Node} :
    mapDefinition s name body = .ok ds ↔ ∃ null core inner id,
      MapsNode { s with owner := some name, inContainer := false } body null core inner ∧
      (body.isNamed = false → s.names.definition name = .ok id) ∧
      ds = inner ++ aliasOf id body core := by
  rw [mapDefinition, bind_eq_ok]
  constructor
  · rintro ⟨⟨t, inner⟩, hnode, h⟩
    obtain ⟨null, core, hmaps, rfl⟩ := exists_mapsNode hnode hs
    cases hnamed : body.isNamed with
    | true =>
      simp only [hnamed, if_true, pure_eq_ok] at h
      exact ⟨null, core, inner, "", hmaps, by simp, by simp [aliasOf, hnamed, h]⟩
    | false =>
      simp only [hnamed, Bool.false_eq_true, if_false, bind_eq_ok, pure_eq_ok,
        unwrap_nullIf null hmaps.kind_ne_optional, Except.ok.injEq, exists_eq_left'] at h
      obtain ⟨id, hid, rfl⟩ := h
      exact ⟨null, core, inner, id, hmaps, fun _ => hid, by simp [aliasOf, hnamed]⟩
  · rintro ⟨null, core, inner, id, hmaps, hid, rfl⟩
    refine ⟨(_, inner), hmaps.mapNode_eq hs, ?_⟩
    cases hnamed : body.isNamed with
    | true => simp [aliasOf, hnamed, pure, Except.pure]
    | false =>
      simp only [Bool.false_eq_true, if_false, bind_eq_ok, pure_eq_ok,
        unwrap_nullIf null hmaps.kind_ne_optional, Except.ok.injEq, exists_eq_left']
      exact ⟨id, hid hnamed, by simp [aliasOf, hnamed]⟩

theorem mapRoot_eq_ok :
    mapRoot s = .ok (t, ds) ↔ ∃ inner,
      mapNode { s with owner := none, inContainer := false } s.schema.root = .ok (t, inner) ∧
      ds = inner ++ aliasOf s.names.root s.schema.root t := by
  simp only [mapRoot, bind_eq_ok]
  constructor
  · rintro ⟨⟨t', inner⟩, hnode, h⟩
    cases hnamed : s.schema.root.isNamed with
    | true =>
      simp only [hnamed, if_true, pure_eq_ok, Prod.mk.injEq] at h
      obtain ⟨rfl, rfl⟩ := h
      exact ⟨_, hnode, by simp [aliasOf, hnamed]⟩
    | false =>
      simp only [hnamed, Bool.false_eq_true, if_false, pure_eq_ok, Prod.mk.injEq] at h
      obtain ⟨rfl, rfl⟩ := h
      exact ⟨_, hnode, by simp [aliasOf, hnamed]⟩
  · rintro ⟨inner, hnode, rfl⟩
    refine ⟨_, hnode, ?_⟩
    cases hnamed : s.schema.root.isNamed <;> simp [aliasOf, hnamed, pure, Except.pure]

/-- A schema is mapped by mapping its definitions in order and then its root. -/
theorem mapSchema_eq_ok {backend : Backend} {names : Naming.Table} {schema : Schema}
    {graph : ReferenceGraph} {m : Mapped} :
    mapSchema backend names schema graph = .ok m ↔ ∃ bodies t rest,
      List.Forall₂ (fun e ds => mapDefinition { backend, names, schema, graph } e.1 e.2 = .ok ds)
        schema.definitions bodies ∧
      mapRoot { backend, names, schema, graph } = .ok (t, rest) ∧
      m = ⟨backend.name, t, bodies.flatten ++ rest,
        Declaration.collectNotes (bodies.flatten ++ rest) [t]⟩ := by
  simp only [mapSchema, bind_eq_ok, pure_eq_ok, mapM_eq_ok]
  constructor
  · rintro ⟨bodies, hbodies, ⟨t, rest⟩, hroot, rfl⟩
    exact ⟨bodies, t, rest, hbodies, hroot, rfl⟩
  · rintro ⟨bodies, t, rest, hbodies, hroot, rfl⟩
    exact ⟨bodies, hbodies, (t, rest), hroot, rfl⟩

/-! ## Success -/

theorem exists_fieldName {t : Naming.Table} (ht : (t.nodes.map Prod.fst).Nodup) {p : Pointer}
    {type : String} {fields : List Naming.FieldName} (hentry : (p, .struct type fields) ∈ t.nodes)
    {key : String} (hkey : key ∈ fields.map Naming.FieldName.key) :
    ∃ f, t.fieldName p key = .ok f := by
  have hfind : (fields.find? fun f => f.key = key).isSome = true := by
    rw [List.find?_isSome]
    obtain ⟨f, hf, rfl⟩ := List.mem_map.1 hkey
    exact ⟨f, hf, by simp⟩
  obtain ⟨f, hf⟩ := Option.isSome_iff_exists.1 hfind
  exact ⟨f, (Naming.Table.fieldName_eq_ok ht).2 ⟨type, fields, hentry, hf⟩⟩

theorem exists_isNullable {schema : Schema} {target : String} (h : target ∈ schema.names) :
    ∃ null, schema.isNullable target = .ok null := by
  obtain ⟨body, hbody⟩ := exists_lookup_of_mem_keys h
  have hdefinition : schema.definition target = .ok body := by
    rw [Schema.definition, Schema.definition?, hbody]
  exact ⟨_, by rw [Schema.isNullable, hdefinition]; rfl⟩

theorem exists_mapFields {path : Pointer} {isOptional : Bool} {entries : List (String × Node)}
    (hnodes : ∀ e ∈ entries, ∃ t ds, mapNode s e.2 = .ok (t, ds))
    (hnames : ∀ e ∈ entries, ∃ f, s.names.fieldName path e.1 = .ok f) :
    ∃ fields ds, mapFields s path isOptional entries = .ok (fields, ds) := by
  have hstep : ∀ e ∈ entries, ∃ r, MapsField s path isOptional e r := by
    intro e he
    obtain ⟨t, ds, hnode⟩ := hnodes e he
    obtain ⟨f, hf⟩ := hnames e he
    exact ⟨(_, ds), t, f, hnode, hf, rfl⟩
  obtain ⟨results, hresults⟩ := exists_forall₂ hstep
  exact ⟨_, _, mapFields_eq_ok.2 ⟨results, hresults, rfl, rfl⟩⟩

theorem exists_mapBranch (h : mapNode s n = .ok (t, ds)) (hs : s.backend.Complete)
    (hform : n.form = .properties) {branch : Branch} {f : Naming.FieldName}
    (htag : s.names.fieldName n.path branch.tag = .ok f) : ∃ ds, mapBranch s branch n = .ok ds := by
  obtain ⟨null, core, hmaps, -⟩ := exists_mapsNode h hs
  cases hmaps with
  | properties hfirst hsecond hname =>
    exact ⟨_, mapBranch_eq_ok.2 ⟨f, _, _, _, _, _, _, hform, htag,
      .properties hfirst hsecond hname, rfl⟩⟩
  | _ => cases hform

/-- With the names it needs, every sound node can be mapped. -/
theorem exists_mapNode {names : List String} {p : Pointer} (h : n.Sound names p)
    (hs : s.backend.Complete) (hsound : s.schema.Sound) (hsuits : s.names.Suits s.schema)
    (hnames : s.schema.names = names) (hwalk : ∀ m ∈ n.preorder, m ∈ s.schema.walk) :
    ∃ t ds, mapNode s n = .ok (t, ds) := by
  have hnodes := hsuits.nodup_nodes hsound
  induction h generalizing s with
  | @empty p info hpath => exact ⟨_, _, (MapsNode.empty info).mapNode_eq hs⟩
  | @ref p info target hpath htarget =>
    rw [← hnames] at htarget
    obtain ⟨null, hnull⟩ := exists_isNullable htarget
    rw [← hsuits.definitions] at htarget
    obtain ⟨⟨_, id⟩, hid, rfl⟩ := List.mem_map.1 htarget
    have hdefinition := (Naming.Table.definition_eq_ok
      (hsuits.definitions ▸ hsound.nodup_names)).2 hid
    exact ⟨_, _, (MapsNode.ref hdefinition hnull).mapNode_eq hs⟩
  | @type p info primitive hpath => exact ⟨_, _, (MapsNode.type info primitive).mapNode_eq hs⟩
  | @enum p info values hpath hvalues =>
    obtain ⟨type, members, hentry, rfl⟩ := hsuits.covers _ (hwalk _ (Node.mem_preorder_self _))
    have hstep : ∀ v ∈ members.map Prod.fst, ∃ m : String × String,
        m.2 = v ∧ s.names.enumMember info.path v = .ok m.1 := by
      intro v hv
      obtain ⟨id, hid⟩ := exists_lookup_of_mem_keys hv
      exact ⟨(id, v), rfl, (Naming.Table.enumMember_eq_ok hnodes).2 ⟨type, members, hentry, hid⟩⟩
    obtain ⟨members', hmembers⟩ := exists_forall₂ hstep
    have hname := (Naming.Table.typeName_eq_ok hnodes).2 ⟨_, hentry, rfl⟩
    exact ⟨_, _, (MapsNode.enum hname hmembers).mapNode_eq hs⟩
  | elements hpath hitem ih =>
    have hbelow : ∀ m ∈ Node.preorder _, m ∈ s.schema.walk := fun m hm =>
      hwalk m (List.mem_cons_of_mem _ hm)
    obtain ⟨t, ds, hnode⟩ := ih (s := { s with inContainer := true }) hs hsound hsuits hnames hbelow
      hnodes
    exact ⟨_, _, (MapsNode.elements hnode).mapNode_eq hs⟩
  | values hpath hitem ih =>
    have hbelow : ∀ m ∈ Node.preorder _, m ∈ s.schema.walk := fun m hm =>
      hwalk m (List.mem_cons_of_mem _ hm)
    obtain ⟨t, ds, hnode⟩ := ih (s := { s with inContainer := true }) hs hsound hsuits hnames hbelow
      hnodes
    exact ⟨_, _, (MapsNode.values hnode).mapNode_eq hs⟩
  | @properties p info required optional additional hpath hkeys hrequired hoptional ihReq ihOpt =>
    obtain ⟨type, fields, hentry, hfields⟩ := hsuits.covers _ (hwalk _ (Node.mem_preorder_self _))
    have hname := (Naming.Table.typeName_eq_ok hnodes).2 ⟨_, hentry, rfl⟩
    have hfield : ∀ e ∈ required ++ optional, ∃ f, s.names.fieldName info.path e.1 = .ok f :=
      fun e he => exists_fieldName hnodes hentry (hfields _ (List.mem_map_of_mem he))
    have hbelow : ∀ e ∈ required ++ optional, ∀ m ∈ e.2.preorder, m ∈ s.schema.walk := by
      intro e he m hm
      refine hwalk m (List.mem_cons_of_mem _ ?_)
      rw [List.mem_append, Node.mem_preorderEntries, Node.mem_preorderEntries]
      exact (List.mem_append.1 he).imp (fun he => ⟨e, he, hm⟩) fun he => ⟨e, he, hm⟩
    obtain ⟨first, nested, hfirst⟩ : ∃ first nested, mapFields { s with inContainer := false }
        info.path false required = .ok (first, nested) :=
      exists_mapFields (fun e he => ihReq e he hs hsound hsuits hnames
        (hbelow e (List.mem_append_left _ he)) hnodes)
        fun e he => hfield e (List.mem_append_left _ he)
    obtain ⟨second, more, hsecond⟩ : ∃ second more, mapFields { s with inContainer := false }
        info.path true optional = .ok (second, more) :=
      exists_mapFields (fun e he => ihOpt e he hs hsound hsuits hnames
        (hbelow e (List.mem_append_right _ he)) hnodes)
        fun e he => hfield e (List.mem_append_right _ he)
    exact ⟨_, _, (MapsNode.properties hfirst hsecond hname).mapNode_eq hs⟩
  | @discriminator p info tag mapping hpath hkeys hmapping hbranches ih =>
    obtain ⟨type, field, hentry, rfl, hstructs⟩ :=
      hsuits.covers _ (hwalk _ (Node.mem_preorder_self _))
    have hfield := (Naming.Table.tagField_eq_ok hnodes).2 ⟨type, hentry⟩
    have hname := (Naming.Table.typeName_eq_ok hnodes).2 ⟨_, hentry, rfl⟩
    have hform : ∀ e ∈ mapping, e.2.form = .properties := by
      intro e he
      obtain ⟨info', required, optional, additional, heq, -, -⟩ := hbranches e he
      rw [heq]
      rfl
    have hbranch : ∀ e ∈ mapping, ∃ ds, mapBranch s ⟨type, field.key, e.1⟩ e.2 = .ok ds := by
      intro e he
      obtain ⟨type', rest, hentry'⟩ := hstructs e he (hform e he)
      obtain ⟨t, ds, hnode⟩ := ih e he hs hsound hsuits hnames (fun m hm => hwalk m
        (List.mem_cons_of_mem _ (Node.mem_preorderEntries.2 ⟨e, he, hm⟩))) hnodes
      have htag : s.names.fieldName e.2.path field.key = .ok field :=
        (Naming.Table.fieldName_eq_ok hnodes).2 ⟨type', _, hentry', by simp⟩
      exact exists_mapBranch hnode hs (hform e he) htag
    have hvariant : ∀ e ∈ mapping, ∃ v : String × String,
        v.1 = e.1 ∧ s.names.typeName e.2.path = .ok v.2 := by
      intro e he
      obtain ⟨type', rest, hentry'⟩ := hstructs e he (hform e he)
      exact ⟨(e.1, type'), rfl, (Naming.Table.typeName_eq_ok hnodes).2 ⟨_, hentry', rfl⟩⟩
    obtain ⟨results, hresults⟩ := exists_forall₂ hbranch
    obtain ⟨variants, hvariants⟩ := exists_forall₂ hvariant
    exact ⟨_, _, (MapsNode.discriminator hfield hname hvariants
      (mapBranches_eq_ok.2 ⟨results, hresults, rfl⟩)).mapNode_eq hs⟩

end

/-- With a table that suits it, every sound schema can be mapped. -/
theorem exists_mapSchema {backend : Backend} (hbackend : backend.Complete) {names : Naming.Table}
    {schema : Schema} (hsound : schema.Sound) (hsuits : names.Suits schema)
    (graph : ReferenceGraph) : ∃ m, mapSchema backend names schema graph = .ok m := by
  have hnode : ∀ (owner : Option String) (p : Pointer) (body : Node), body.Sound schema.names p →
      (∀ m ∈ body.preorder, m ∈ schema.walk) →
      ∃ t ds, mapNode { backend, names, schema, graph, owner } body = .ok (t, ds) :=
    fun owner p body hbody hwalk => exists_mapNode hbody hbackend hsound hsuits rfl hwalk
  have hdefinition : ∀ e ∈ schema.definitions,
      ∃ ds, mapDefinition { backend, names, schema, graph } e.1 e.2 = .ok ds := by
    intro e he
    obtain ⟨t, ds, ht⟩ := hnode (some e.1) _ e.2 (hsound.definitions e he) fun m hm => by
      rw [Schema.walk_eq_append]
      exact List.mem_append_left _ (List.mem_flatMap.2 ⟨e.2, List.mem_map_of_mem he, hm⟩)
    obtain ⟨null, core, hmaps, -⟩ := exists_mapsNode ht hbackend
    obtain ⟨i, hi, hkey, -⟩ := exists_of_mem_left hsuits.own he
    have hid : names.definition e.1 = .ok i.2 :=
      (Naming.Table.definition_eq_ok (hsuits.definitions ▸ hsound.nodup_names)).2 (hkey ▸ hi)
    exact ⟨_, (mapDefinition_eq_ok hbackend).2 ⟨null, core, ds, i.2, hmaps, fun _ => hid, rfl⟩⟩
  obtain ⟨bodies, hbodies⟩ := exists_forall₂ hdefinition
  obtain ⟨t, ds, ht⟩ := hnode none _ schema.root hsound.root fun m hm => by
    rw [Schema.walk_eq_append]
    exact List.mem_append_right _ hm
  exact ⟨_, mapSchema_eq_ok.2 ⟨bodies, t, _, hbodies, mapRoot_eq_ok.2 ⟨ds, ht, rfl⟩, rfl⟩⟩

end Mapping

end Typegen
