import Typegen.Proofs.Declared
import Typegen.Proofs.Provenance

/-!
# The shapes of declarations

`Declaration.Shaped` lists the declarations that the mapping makes: structs without a tag, branches
of a union with the tag in front, enumerations and unions that are not empty, and names for types,
all with identifiers from the table.  The declarations of every resolved schema are of these shapes
(`shaped_of_mapSchema`).
-/

namespace Typegen

open Schema (Node)

/-! ## Nodes that hold something -/

/-- An enumeration has a value, and a union has a branch. -/
def Schema.Node.Filled : Node → Prop
  | .enum _ members => members ≠ []
  | .discriminator _ _ mapping => mapping ≠ []
  | _ => True

namespace Schema

theorem filled_of_resolveNode {names : List String} {site : Site} {raw : Json} {n : Node}
    (h : resolveNode names site raw = .ok n) : n.Filled := by
  obtain ⟨members, rfl⟩ := resolveNode_eq_ok_object h
  obtain ⟨info, head, hread, hassembles⟩ := resolveNode_object_eq_ok.1 h
  obtain ⟨form, -, -, -, hhead⟩ := readSchema_eq_ok.1 hread
  have hform := form_of_readHead hhead
  cases hassembles with
  | enum values =>
    obtain rfl : Form.enum = form := hform
    obtain ⟨values', -, hvalues, -, heq⟩ := readHead_enum.1 hhead
    obtain rfl := Head.enum.inj heq
    exact hvalues
  | discriminator tag hmapping =>
    obtain rfl : Form.discriminator = form := hform
    obtain ⟨tag', branches, -, hget, hbranches, -⟩ := readHead_discriminator.1 hhead
    rw [membersAt_of_get? hget, resolveBranches_eq_ok] at hmapping
    rintro rfl
    exact hbranches (List.forall₂_nil_right_iff.1 hmapping)
  | empty | ref | type | elements | properties | values => trivial

theorem filled_of_resolve {document : Json} {schema : Schema} (hdistinct : document.Distinct)
    (h : resolve document = .ok schema) : ∀ n ∈ schema.walk, n.Filled := by
  intro n hn
  obtain ⟨v, hbuilt⟩ := exists_builtFrom_of_mem_walk hdistinct h hn
  obtain ⟨site, -, hread⟩ := (hbuilt.readAt hdistinct h).read
  exact filled_of_resolveNode hread

end Schema

/-! ## Identifiers of the table -/

namespace Naming.Table

variable {names : Table} {path : Pointer}

theorem mem_select_of_at? {α : Type} {part : Names → Option α} {a : α}
    (h : names.at? part path = .ok a) : (path, a) ∈ names.select part := by
  unfold at? at h
  split at h
  · next a' hlookup =>
    obtain rfl := Except.ok.inj h
    obtain ⟨node, hnode, hpart⟩ := Option.bind_eq_some_iff.1 hlookup
    exact mem_select.2 ⟨node, mem_of_lookup hnode, hpart⟩
  · cases h

theorem mem_fieldNames_of_fieldName {key : String} {f : FieldName}
    (h : names.fieldName path key = .ok f) : f.identifier ∈ names.fieldNames := by
  obtain ⟨fields, hfields, h⟩ := bind_eq_ok.1 h
  split at h
  · next f' hfind =>
    obtain rfl := Except.ok.inj h
    refine List.mem_map_of_mem (List.mem_append_left _ ?_)
    exact List.mem_flatMap.2 ⟨_, mem_select_of_at? hfields, List.mem_of_find?_eq_some hfind⟩
  · cases h

/-- Somewhere in the table, a key has an identifier. -/
def NamesKey (names : Table) (key id : String) : Prop :=
  ∃ path f, names.fieldName path key = .ok f ∧ f.identifier = id

theorem NamesKey.mem_fieldNames {key id : String} (h : names.NamesKey key id) :
    id ∈ names.fieldNames := by
  obtain ⟨path, f, hf, rfl⟩ := h
  exact mem_fieldNames_of_fieldName hf

theorem mem_allMembers_of_enumMember {value id : String} (h : names.enumMember path value = .ok id) :
    id ∈ names.allMembers := by
  obtain ⟨members, hmembers, h⟩ := bind_eq_ok.1 h
  split at h
  · next id' hlookup =>
    obtain rfl := Except.ok.inj h
    refine List.mem_flatMap.2 ⟨_, mem_select_of_at? hmembers, ?_⟩
    exact List.mem_map.2 ⟨_, mem_of_lookup hlookup, rfl⟩
  · cases h

/-- All identifiers are made of ASCII letters, digits and underscores, and begin with no digit. -/
structure Plain (names : Table) : Prop where
  types : ∀ id ∈ names.typeNames, Text.isPlainIdentifier id.toList = true
  fields : ∀ id ∈ names.fieldNames, Text.isPlainIdentifier id.toList = true
  members : ∀ id ∈ names.allMembers, Text.isPlainIdentifier id.toList = true

theorem plain_of_assign {r : Rules} {schema : Schema} {rootName : Json} (hr : r.SpellsLegally)
    (htypes : r.typeCase ≠ .preserve) (hfields : r.fieldCase ≠ .preserve)
    (hmembers : r.memberScopeCase ≠ .preserve) (h : assign r schema rootName = .ok names) :
    names.Plain :=
  ⟨legal_typeNames hr htypes h, legal_fieldNames hr hfields h, legal_allMembers hr hmembers h⟩

end Naming.Table

/-! ## Shapes -/

/-- A field of a key, whose type the target can write. -/
structure Field.Shaped (target : Target) (names : Naming.Table) (f : Field) : Prop where
  name : names.NamesKey f.wire f.name
  type : f.type.Formed target (· ∈ names.typeNames)
  isTag : f.isTag = false

variable {target : Target} {names : Naming.Table}

theorem dataFields_of_shaped {fields : List Field} (h : ∀ f ∈ fields, f.Shaped target names) :
    dataFields fields = fields := by
  refine List.filter_eq_self.2 fun f hf => ?_
  rw [(h f hf).isTag]
  rfl

/-- A declaration as the mapping makes them for a target. -/
inductive Declaration.Shaped (target : Target) (names : Naming.Table) : Declaration → Prop
  | struct {header : Header} {fields : List Field} (hname : header.name ∈ names.typeNames)
      (hfields : ∀ f ∈ fields, f.Shaped target names) (additional : Bool) :
      Shaped target names (.struct header fields none additional)
  | branch {header : Header} {fields : List Field} {b : Mapping.Branch} {tagName : String}
      (hname : header.name ∈ names.typeNames) (hunion : b.union ∈ names.typeNames)
      (htag : names.NamesKey b.tag tagName) (hfields : ∀ f ∈ fields, f.Shaped target names)
      (additional : Bool) :
      Shaped target names
        (.struct header (b.field tagName :: fields) (some b.union) additional)
  | enum {header : Header} {members : List (String × String)}
      (hname : header.name ∈ names.typeNames) (hmembers : ∀ m ∈ members, m.1 ∈ names.allMembers)
      (hfilled : members ≠ []) : Shaped target names (.enum header members)
  | union {header : Header} {variants : List (String × String)}
      (hname : header.name ∈ names.typeNames) (tagName tagWire : String)
      (hvariants : ∀ v ∈ variants, v.2 ∈ names.typeNames) (hfilled : variants ≠ []) :
      Shaped target names (.union header tagName tagWire variants)
  | synonym {header : Header} {t : TypeExpr} (hname : header.name ∈ names.typeNames)
      (ht : t.Formed target (· ∈ names.typeNames)) : Shaped target names (.synonym header t)

theorem Declaration.Shaped.name {d : Declaration} (h : d.Shaped target names) :
    d.name ∈ names.typeNames := by
  cases h <;> assumption

theorem Declaration.Shaped.types {d : Declaration} (h : d.Shaped target names) :
    ∀ t ∈ d.types, t.Formed target (· ∈ names.typeNames) := by
  cases h with
  | struct _ hfields => simpa [Declaration.types] using fun f hf => (hfields f hf).type
  | @branch _ fields b _ _ _ _ hfields =>
    have hrest : ∀ t ∈ fields.map (·.type), t.Formed target (· ∈ names.typeNames) := by
      simpa using fun f hf => (hfields f hf).type
    exact List.forall_mem_cons.2 ⟨.literal b.value, hrest⟩
  | enum | union => simp [Declaration.types]
  | synonym _ ht => exact List.forall_mem_singleton.2 ht

namespace Mapping

open Naming.Table (mem_typeNames_of_typeName mem_allMembers_of_enumMember)

variable {s : Scope} {names : Naming.Table} {schema : Schema} {entries : List (String × Node)}
  {fields : List Field} {ds : List Declaration}

theorem shaped_of_mapFields {names : List String} {path : Pointer} {isOptional : Bool}
    (h : mapFields s path isOptional entries = .ok (fields, ds)) (hs : s.backend.Complete)
    (hentries : ∀ e ∈ entries, ∃ p, e.2.Sound names p) :
    ∀ f ∈ fields, f.Shaped s.backend.target s.names := by
  have hformed := formed_of_mapFields h hs hentries
  obtain ⟨results, hresults, rfl, -⟩ := mapFields_eq_ok.1 h
  intro f hf
  have htype := hformed f hf
  obtain ⟨r, hr, rfl⟩ := List.mem_map.1 hf
  obtain ⟨e, -, t, name, -, hname, hfield⟩ := exists_of_mem_right hresults hr
  refine ⟨?_, htype, ?_⟩
  · rw [hfield]
    exact ⟨path, name, hname, rfl⟩
  · rw [hfield]

theorem forall_of_mapFields {path : Pointer} {isOptional : Bool}
    (h : mapFields s path isOptional entries = .ok (fields, ds)) {P : Declaration → Prop}
    (hentries : ∀ e ∈ entries, ∀ t ds, mapNode s e.2 = .ok (t, ds) → ∀ d ∈ ds, P d) :
    ∀ d ∈ ds, P d := by
  obtain ⟨results, hresults, -, rfl⟩ := mapFields_eq_ok.1 h
  intro d hd
  obtain ⟨r, hr, hd⟩ := List.mem_flatMap.1 hd
  obtain ⟨e, he, t, name, hnode, -⟩ := exists_of_mem_right hresults hr
  exact hentries e he t r.2 hnode d hd

/-- A struct becomes a branch by the tag in front of its fields and the union as its base. -/
theorem shaped_branch {target : Target} {header : Header} {additional : Bool} {b : Branch}
    {tagName : String} (h : Declaration.Shaped target names (.struct header fields none additional))
    (hunion : b.union ∈ names.typeNames) (htag : names.NamesKey b.tag tagName) :
    Declaration.Shaped target names
      (.struct header (b.field tagName :: fields) (some b.union) additional) := by
  cases h with
  | struct hname hfields => exact .branch hname hunion htag hfields additional

theorem filled_child {n : Node} {e : String × Node} (h : ∀ m ∈ n.preorder, m.Filled)
    (hentries : Node.preorderEntries entries ⊆ n.preorder) (he : e ∈ entries) :
    ∀ m ∈ e.2.preorder, m.Filled := by
  intro m hm
  apply h m
  apply hentries
  rw [Node.preorderEntries_eq]
  exact List.mem_flatMap.2 ⟨e.2, List.mem_map_of_mem he, hm⟩

/-- The declarations of a node have the shapes, where no enumeration and no union is empty. -/
theorem shaped_of_mapNode {names : List String} {p : Pointer} {n : Node} (h : n.Sound names p)
    {t : TypeExpr} (hmap : mapNode s n = .ok (t, ds)) (hs : s.backend.Complete)
    (hfilled : ∀ m ∈ n.preorder, m.Filled) : ∀ d ∈ ds, d.Shaped s.backend.target s.names := by
  induction h generalizing s t ds with
  | empty | ref | type =>
    obtain ⟨null, core, hmaps, -⟩ := exists_mapsNode hmap hs
    cases hmaps
    simp
  | enum =>
    obtain ⟨null, core, hmaps, -⟩ := exists_mapsNode hmap hs
    cases hmaps with
    | enum hname hmembers =>
      have hvalues := hfilled _ (by rw [Node.preorder]; exact List.mem_cons_self)
      refine List.forall_mem_singleton.2 (.enum (mem_typeNames_of_typeName hname) ?_ ?_)
      · intro m hm
        obtain ⟨v, -, -, hmember⟩ := exists_of_mem_right hmembers hm
        exact mem_allMembers_of_enumMember hmember
      · rintro rfl
        exact hvalues (List.forall₂_nil_right_iff.1 hmembers)
  | elements _ _ ih =>
    obtain ⟨null, core, hmaps, -⟩ := exists_mapsNode hmap hs
    cases hmaps with
    | elements hitem =>
      refine ih (s := { s with inContainer := true }) hitem hs fun m hm => hfilled m ?_
      rw [Node.preorder]
      exact List.mem_cons_of_mem _ hm
  | values _ _ ih =>
    obtain ⟨null, core, hmaps, -⟩ := exists_mapsNode hmap hs
    cases hmaps with
    | values hitem =>
      refine ih (s := { s with inContainer := true }) hitem hs fun m hm => hfilled m ?_
      rw [Node.preorder]
      exact List.mem_cons_of_mem _ hm
  | @properties path info required optional additional hpath hkeys hrequired hoptional ihRequired
      ihOptional =>
    obtain ⟨null, core, hmaps, -⟩ := exists_mapsNode hmap hs
    cases hmaps with
    | properties hfirst hsecond hname =>
      refine List.forall_mem_cons.2 ⟨.struct (mem_typeNames_of_typeName hname) ?_ _, ?_⟩
      · intro f hf
        rcases List.mem_append.1 hf with hf | hf
        · exact shaped_of_mapFields hfirst hs (fun e he => ⟨_, hrequired e he⟩) f hf
        · exact shaped_of_mapFields hsecond hs (fun e he => ⟨_, hoptional e he⟩) f hf
      · refine List.forall_mem_append.2 ⟨?_, ?_⟩
        · refine forall_of_mapFields hfirst fun e he t ds hnode =>
            ihRequired e he (s := { s with inContainer := false }) hnode hs ?_
          refine filled_child hfilled ?_ he
          rw [Node.preorder]
          simp
        · refine forall_of_mapFields hsecond fun e he t ds hnode =>
            ihOptional e he (s := { s with inContainer := false }) hnode hs ?_
          refine filled_child hfilled ?_ he
          rw [Node.preorder]
          simp
  | discriminator _ _ _ _ ih =>
    obtain ⟨null, core, hmaps, -⟩ := exists_mapsNode hmap hs
    cases hmaps with
    | discriminator hfield hname hvariants hbranches =>
      have hmapping := hfilled _ (by rw [Node.preorder]; exact List.mem_cons_self)
      have hunion := mem_typeNames_of_typeName hname
      refine List.forall_mem_cons.2 ⟨.union hunion _ _ ?_ ?_, ?_⟩
      · intro v hv
        obtain ⟨e, -, -, hvariant⟩ := exists_of_mem_right hvariants hv
        exact mem_typeNames_of_typeName hvariant
      · rintro rfl
        exact hmapping (List.forall₂_nil_right_iff.1 hvariants)
      · intro d hd
        obtain ⟨results, hresults, rfl⟩ := mapBranches_eq_ok.1 hbranches
        obtain ⟨ds', hds', hd⟩ := List.mem_flatten.1 hd
        obtain ⟨e, he, hbranch⟩ := exists_of_mem_right hresults hds'
        obtain ⟨tagName, null', core', header, fields, additional, rest, -, htag, hbody, rfl⟩ :=
          mapBranch_eq_ok.1 hbranch
        have hshaped := ih e he (hbody.mapNode_eq hs) hs
          (filled_child hfilled (by rw [Node.preorder]; simp) he)
        rw [List.forall_mem_cons] at hshaped
        rcases List.mem_cons.1 hd with rfl | hd
        · exact shaped_branch hshaped.1 hunion ⟨_, tagName, htag, rfl⟩
        · exact hshaped.2 d hd

theorem mem_typeNames_of_mem_bodies {b : Node × String} (hb : b ∈ bodies names schema) :
    b.2 ∈ names.typeNames := by
  have hmem := (List.of_mem_zip hb).2
  rcases List.mem_append.1 hmem with hmem | hmem
  · exact List.mem_cons_of_mem _ (List.mem_append_left _ hmem)
  · rw [List.mem_singleton.1 hmem]
    exact List.mem_cons_self

/-- The declarations of a schema have the shapes, where no enumeration and no union is empty. -/
theorem shaped_of_mapSchema {backend : Backend} {graph : ReferenceGraph} {m : Mapped}
    (hbackend : backend.Complete) (hsound : schema.Sound) (hfilled : ∀ n ∈ schema.walk, n.Filled)
    (hsuits : names.Suits schema) (h : mapSchema backend names schema graph = .ok m) :
    ∀ d ∈ m.declarations, d.Shaped backend.target names := by
  obtain ⟨dss, hdss, hall⟩ := mapsBody_of_mapSchema hbackend hsound hsuits h
  rw [hall]
  intro d hd
  obtain ⟨ds, hds, hd⟩ := List.mem_flatten.1 hd
  obtain ⟨b, hb, s, null, core, t, inner, rfl, rfl, rfl, hmaps, ht, rfl⟩ :=
    exists_of_mem_right hdss hds
  obtain ⟨p, hp⟩ := sound_of_mem_bodies hsound hsuits hb
  rcases List.mem_append.1 hd with hd | hd
  · exact shaped_of_mapNode hp (hmaps.mapNode_eq hbackend) hbackend
      (fun m hm => hfilled m (mem_walk_of_mem_bodies hsuits hb hm)) d hd
  · obtain ⟨-, rfl⟩ := mem_aliasOf.1 hd
    have hcore := formed_of_mapsNode hp hmaps hbackend
    refine .synonym (mem_typeNames_of_mem_bodies hb) ?_
    rcases ht with rfl | rfl
    · exact hcore
    · exact hcore.nullIf null

/-- Where there is a union there is a struct. -/
theorem exists_isStruct_of_isUnion {backend : Backend} {graph : ReferenceGraph} {m : Mapped}
    (hbackend : backend.Complete) (hsound : schema.Sound) (hfilled : ∀ n ∈ schema.walk, n.Filled)
    (hsuits : names.Suits schema) (h : mapSchema backend names schema graph = .ok m)
    {d : Declaration} (hd : d ∈ m.declarations) (hunion : d.isUnion = true) :
    ∃ d' ∈ m.declarations, d'.isStruct = true := by
  cases shaped_of_mapSchema hbackend hsound hfilled hsuits h d hd with
  | @union header variants _ tagName tagWire _ hvariants =>
    obtain ⟨v, hv⟩ := List.exists_mem_of_ne_nil _ hvariants
    obtain ⟨info, mapping, -, -, -, hbranches⟩ :=
      branches_of_mapSchema hbackend hsound hsuits h hd
    obtain ⟨header', fields, additional, hsublist, -⟩ := hbranches v hv
    exact ⟨_, hsublist.subset (List.mem_cons_of_mem _ List.mem_cons_self), rfl⟩
  | struct | branch | enum | synonym => cases hunion

/-- A resolved schema that has been named can be mapped, and its declarations have the shapes. -/
theorem exists_shaped {document : Json} {rules : Naming.Rules} {rootName : Json}
    (hdistinct : document.Distinct) (hresolve : Schema.resolve document = .ok schema)
    (hassign : Naming.assign rules schema rootName = .ok names) (target : Target)
    (graph : ReferenceGraph) :
    ∃ m, mapSchema { target.backend with rules := rules } names schema graph = .ok m ∧
      ∀ d ∈ m.declarations, d.Shaped target names := by
  have hsound := Schema.sound_of_resolve hdistinct hresolve
  have hfilled := Schema.filled_of_resolve hdistinct hresolve
  have hsuits := Naming.Table.suits_of_assign hassign
  have hbackend := target.complete_backend rules
  obtain ⟨m, hm⟩ := exists_mapSchema hbackend hsound hsuits graph
  exact ⟨m, hm, shaped_of_mapSchema hbackend hsound hfilled hsuits hm⟩

end Mapping

end Typegen
