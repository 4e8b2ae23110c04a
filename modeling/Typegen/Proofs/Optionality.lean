import Typegen.Proofs.Declared

/-!
# Optional types

A value may be absent because its key is optional, and null because its node or the definition that
the node refers to is nullable.  An expression says so by one wrapper with two flags, which is there
just when a flag is set and never around another one (`TypeExpr.Optionality`).  `TypeExpr.Exact` says
it for the expression of a node and for all expressions of items inside: items are never absent, and
each may be null just when its own node may.

The wrapper is made in several places: around the type of a reference, around that of a node, and
around that of a field, and it is taken off again where a definition is named.  One step of the
mapping adds null just when the node takes it (`MapsNode.null_iff`), and the rest follows the nodes.
-/

namespace Typegen

open Schema (Node Info)

/-- Null is a value of a node: by the node itself, or by the definition it refers to. -/
def Schema.TakesNull (s : Schema) (n : Node) : Prop :=
  n.nullable = true ∨ ∃ info target, n = .ref info target ∧ s.isNullable target = .ok true

namespace TypeExpr

/-- An expression holds a core that is not optional.  It is that core if a value is neither absent
nor null, and else it is optional with the flags that tell which of both it may be. -/
structure Optionality (t core : TypeExpr) (absent null : Prop) : Prop where
  kind_ne : core.kind ≠ .optional
  bare : t.kind ≠ .optional → t = core ∧ ¬absent ∧ ¬null
  wrapped : t.kind = .optional → t.args = [core] ∧ (t.mayBeAbsent = true ↔ absent) ∧
    (t.mayBeNull = true ↔ null) ∧ (absent ∨ null)

/-- The optionality of an expression is that of its node, and so is that of the items inside. -/
inductive Exact (schema : Schema) : Prop → Prop → Node → TypeExpr → Prop
  | leaf {absent null : Prop} {n : Node} {t core : TypeExpr}
      (hform : n.form ≠ .elements ∧ n.form ≠ .values) (ht : t.Optionality core absent null)
      (hcore : core.args = []) : Exact schema absent null n t
  | elements {absent null : Prop} {info : Info} {item : Node} {t inner : TypeExpr}
      (ht : t.Optionality (.array inner) absent null)
      (hitem : Exact schema False (schema.TakesNull item) item inner) :
      Exact schema absent null (.elements info item) t
  | values {absent null : Prop} {info : Info} {item : Node} {t inner : TypeExpr}
      (ht : t.Optionality (.map inner) absent null)
      (hitem : Exact schema False (schema.TakesNull item) item inner) :
      Exact schema absent null (.values info item) t

/-- No optional expression is directly inside another, and none is optional for nothing. -/
def Normal (t : TypeExpr) : Prop :=
  ∀ e ∈ t.walk, e.kind = .optional →
    (e.mayBeAbsent = true ∨ e.mayBeNull = true) ∧ ∀ a ∈ e.args, a.kind ≠ .optional

/-! ## Wrappers -/

section

variable {t core : TypeExpr} {absent null : Prop}

theorem Optionality.refl (hcore : core.kind ≠ .optional) : core.Optionality core False False :=
  ⟨hcore, fun _ => ⟨rfl, not_false, not_false⟩, fun h => absurd h hcore⟩

theorem optionality_nullIf (hcore : core.kind ≠ .optional) (null : Bool) :
    (core.nullIf null).Optionality core False (null = true) := by
  cases null with
  | false => simpa [nullIf] using Optionality.refl hcore
  | true =>
    have hwrap : core.nullIf true = { kind := .optional, args := [core], mayBeNull := true } := by
      simp [nullIf, withOptionality, hcore]
    rw [hwrap]
    exact ⟨hcore, fun h => absurd rfl h, fun _ => by simp⟩

theorem Optionality.orAbsent (h : t.Optionality core False null) :
    (t.withOptionality true false).Optionality core True null := by
  by_cases hkind : t.kind = .optional
  · obtain ⟨hargs, -, hnull, -⟩ := h.wrapped hkind
    rw [withOptionality, if_pos hkind]
    exact ⟨h.kind_ne, fun hne => absurd hkind hne,
      fun _ => ⟨hargs, by simp, by simp [hnull], by simp⟩⟩
  · obtain ⟨rfl, -, hnull⟩ := h.bare hkind
    rw [withOptionality, if_neg hkind]
    exact ⟨h.kind_ne, fun hne => absurd rfl hne, fun _ => ⟨rfl, by simp, by simp [hnull], by simp⟩⟩

end

/-! ## Normal forms -/

section

variable {t core : TypeExpr} {absent null : Prop}

theorem normal_of_args (hargs : ∀ a ∈ t.args, a.Normal)
    (ht : t.kind = .optional → (t.mayBeAbsent = true ∨ t.mayBeNull = true) ∧
      ∀ a ∈ t.args, a.kind ≠ .optional) : t.Normal := by
  intro e he
  rw [walk_eq, walkAll_eq, List.mem_cons, List.mem_flatMap] at he
  rcases he with rfl | ⟨a, ha, he⟩
  · exact ht
  · exact hargs a ha e he

theorem normal_of_kind (hkind : t.kind ≠ .optional) (hargs : ∀ a ∈ t.args, a.Normal) : t.Normal :=
  normal_of_args hargs fun h => absurd h hkind

theorem Optionality.normal (h : t.Optionality core absent null) (hcore : core.Normal) :
    t.Normal := by
  by_cases hkind : t.kind = .optional
  · obtain ⟨hargs, habsent, hnull, hor⟩ := h.wrapped hkind
    refine normal_of_args ?_ fun _ => ⟨?_, ?_⟩
    · simpa [hargs] using hcore
    · rwa [habsent, hnull]
    · simpa [hargs] using h.kind_ne
  · rw [(h.bare hkind).1]
    exact hcore

variable {schema : Schema} {n : Node}

theorem Exact.normal (h : Exact schema absent null n t) : t.Normal := by
  induction h with
  | leaf _ ht hcore => exact ht.normal (normal_of_kind ht.kind_ne (by simp [hcore]))
  | elements ht _ ih => exact ht.normal (normal_of_kind ht.kind_ne (by simpa [array] using ih))
  | values ht _ ih => exact ht.normal (normal_of_kind ht.kind_ne (by simpa [map] using ih))

theorem Exact.kind_ne_optional (h : Exact schema False False n t) : t.kind ≠ .optional := by
  intro hkind
  cases h with
  | leaf _ ht | elements ht | values ht => simpa using (ht.wrapped hkind).2.2.2

/-- Where a value may be absent or null, the flags tell which. -/
theorem Exact.flags (h : Exact schema absent null n t) (hor : absent ∨ null) :
    t.kind = .optional ∧ (t.mayBeAbsent = true ↔ absent) ∧
      (t.mayBeNull = true ↔ null) := by
  cases h with
  | leaf _ ht | elements ht | values ht =>
    by_cases hkind : t.kind = .optional
    · obtain ⟨-, habsent, hnull, -⟩ := ht.wrapped hkind
      exact ⟨hkind, habsent, hnull⟩
    · obtain ⟨-, habsent, hnull⟩ := ht.bare hkind
      exact absurd hor (not_or.2 ⟨habsent, hnull⟩)

end

end TypeExpr

namespace Mapping

open TypeExpr (Exact Optionality)

variable {s : Scope}

/-! ## The types of nodes -/

variable {n : Node} {ds : List Declaration} {null : Bool} {core : TypeExpr} {names : List String}
  {fields : List Field}

/-- Null is added to the type of a node just when the node takes it. -/
theorem MapsNode.null_iff (h : MapsNode s n null core ds) : null = true ↔ s.schema.TakesNull n := by
  cases h with
  | ref hid hnull =>
    simp only [Schema.TakesNull, Node.nullable, Node.info, Bool.or_eq_true, Node.ref.injEq]
    refine or_congr_right ⟨?_, ?_⟩
    · rintro rfl
      exact ⟨_, _, ⟨rfl, rfl⟩, hnull⟩
    · rintro ⟨_, _, ⟨-, rfl⟩, hnull'⟩
      exact Except.ok.inj (hnull.symm.trans hnull')
  | empty | type | enum | elements | values | properties | discriminator =>
    simp [Schema.TakesNull, Node.nullable, Node.info]

theorem MapsNode.optionality (h : MapsNode s n null core ds) :
    (core.nullIf null).Optionality core False (s.schema.TakesNull n) := by
  rw [← propext h.null_iff]
  exact TypeExpr.optionality_nullIf h.kind_ne_optional null

/-- Whatever is made of the core of a node's type, the items inside are exact. -/
theorem exact_of_mapsNode {p : Pointer} (h : n.Sound names p) {t : TypeExpr}
    (hmaps : MapsNode s n null core ds) (hs : s.backend.Complete) {absent nulls : Prop}
    (ht : t.Optionality core absent nulls) : Exact s.schema absent nulls n t := by
  induction h generalizing s null core t ds absent nulls with
  | empty | ref | type | enum | properties | discriminator =>
    cases hmaps
    exact .leaf (by simp [Node.form]) ht rfl
  | elements _ _ ih =>
    cases hmaps with
    | elements hitem =>
      obtain ⟨null', core', hmaps', rfl⟩ := exists_mapsNode hitem hs
      exact .elements ht (ih hmaps' hs hmaps'.optionality)
  | values _ _ ih =>
    cases hmaps with
    | values hitem =>
      obtain ⟨null', core', hmaps', rfl⟩ := exists_mapsNode hitem hs
      exact .values ht (ih hmaps' hs hmaps'.optionality)

theorem exact_of_mapFields {path : Pointer} {isOptional : Bool} {entries : List (String × Node)}
    (h : mapFields s path isOptional entries = .ok (fields, ds)) (hs : s.backend.Complete)
    (hentries : ∀ e ∈ entries, ∃ p, e.2.Sound names p) :
    List.Forall₂ (fun e f => f.wire = e.1 ∧ f.isTag = false ∧
      Exact s.schema (isOptional = true) (s.schema.TakesNull e.2) e.2 f.type) entries fields := by
  obtain ⟨results, hresults, rfl, -⟩ := mapFields_eq_ok.1 h
  rw [List.forall₂_map_right_iff]
  refine forall₂_imp_mem hresults fun e he r _ ⟨t, name, hnode, _, hfield⟩ => ?_
  obtain ⟨p, hp⟩ := hentries e he
  obtain ⟨null, core, hmaps, rfl⟩ := exists_mapsNode hnode hs
  rw [hfield]
  refine ⟨rfl, rfl, exact_of_mapsNode hp hmaps hs ?_⟩
  cases isOptional with
  | false => simpa using hmaps.optionality
  | true => simpa using hmaps.optionality.orAbsent

/-! ## Structs -/

/-- The fields of a struct are exact for the keys of its node.  There is one for each key, which may
be absent just when the key is an optional one.  Tags are texts. -/
structure ExactFields (schema : Schema) (required optional : List (String × Node))
    (fields : List Field) : Prop where
  keys : (dataFields fields).map Field.wire = (required ++ optional).map Prod.fst
  data : ∀ f ∈ dataFields fields, ∃ child, (f.wire, child) ∈ required ++ optional ∧
    Exact schema (f.wire ∈ optional.map Prod.fst) (schema.TakesNull child) child f.type
  tags : ∀ f ∈ fields, f.isTag = true → ∃ value, f.type = .literal value

theorem exactFields_append {schema : Schema} {required optional : List (String × Node)}
    {tags first second : List Field} (hkeys : ((required ++ optional).map Prod.fst).Nodup)
    (htags : ∀ f ∈ tags, ∃ branch name, f = Branch.field branch name)
    (hfirst : List.Forall₂ (fun e f => f.wire = e.1 ∧ f.isTag = false ∧
      Exact schema (false = true) (schema.TakesNull e.2) e.2 f.type) required first)
    (hsecond : List.Forall₂ (fun e f => f.wire = e.1 ∧ f.isTag = false ∧
      Exact schema (true = true) (schema.TakesNull e.2) e.2 f.type) optional second) :
    ExactFields schema required optional (tags ++ (first ++ second)) := by
  have hnotTag : ∀ f ∈ first ++ second, f.isTag = false := by
    intro f hf
    rcases List.mem_append.1 hf with hf | hf
    · obtain ⟨e, -, -, htag, -⟩ := exists_of_mem_right hfirst hf
      exact htag
    · obtain ⟨e, -, -, htag, -⟩ := exists_of_mem_right hsecond hf
      exact htag
  have hdata : dataFields (tags ++ (first ++ second)) = first ++ second := by
    rw [dataFields, List.filter_append, List.filter_eq_nil_iff.2, List.filter_eq_self.2,
      List.nil_append]
    · exact fun f hf => by simp [hnotTag f hf]
    · intro f hf
      obtain ⟨branch, name, rfl⟩ := htags f hf
      simp [Branch.field]
  rw [List.map_append, List.nodup_append'] at hkeys
  refine ⟨?_, fun f hf => ?_, fun f hf htag => ?_⟩
  · rw [hdata, List.map_append, List.map_append, map_eq_of_forall₂ hfirst fun _ _ h => h.1,
      map_eq_of_forall₂ hsecond fun _ _ h => h.1]
  · rw [hdata] at hf
    rcases List.mem_append.1 hf with hf | hf
    · obtain ⟨e, he, hwire, -, hexact⟩ := exists_of_mem_right hfirst hf
      have hother : f.wire ∉ optional.map Prod.fst := by
        rw [hwire]
        exact hkeys.2.2 (List.mem_map_of_mem he)
      refine ⟨e.2, hwire ▸ List.mem_append_left _ he, ?_⟩
      rw [eq_false hother]
      simpa using hexact
    · obtain ⟨e, he, hwire, -, hexact⟩ := exists_of_mem_right hsecond hf
      have hown : f.wire ∈ optional.map Prod.fst := by
        rw [hwire]
        exact List.mem_map_of_mem he
      refine ⟨e.2, hwire ▸ List.mem_append_right _ he, ?_⟩
      rw [eq_true hown]
      simpa using hexact
  · rcases List.mem_append.1 hf with hf | hf
    · obtain ⟨branch, name, rfl⟩ := htags f hf
      exact ⟨branch.value, rfl⟩
    · cases (hnotTag f hf).symm.trans htag

theorem Builds.exactFields {p : Pointer} (hn : n.Sound names p) {header : Header}
    {base : Option String} {additional : Bool}
    (h : Builds s n (.struct header fields base additional)) (hs : s.backend.Complete) :
    ∃ info required optional, n = .properties info required optional additional ∧
      header.path = info.path.text ∧ ExactFields s.schema required optional fields := by
  cases h with
  | struct tags base htags hfirst hsecond hname =>
    cases hn with
    | properties hpath hkeys hrequired hoptional =>
      refine ⟨_, _, _, rfl, rfl, exactFields_append hkeys htags ?_ ?_⟩
      · exact exact_of_mapFields (s := { s with inContainer := false }) hfirst hs
          fun e he => ⟨_, hrequired e he⟩
      · exact exact_of_mapFields (s := { s with inContainer := false }) hsecond hs
          fun e he => ⟨_, hoptional e he⟩

theorem ExactFields.normal {schema : Schema} {required optional : List (String × Node)}
    (h : ExactFields schema required optional fields) : ∀ f ∈ fields, f.type.Normal := by
  intro f hf
  cases htag : f.isTag with
  | true =>
    obtain ⟨value, hvalue⟩ := h.tags f hf htag
    rw [hvalue]
    exact TypeExpr.normal_of_kind (by simp [TypeExpr.literal]) (by simp [TypeExpr.literal])
  | false =>
    obtain ⟨child, -, hexact⟩ := h.data f (List.mem_filter.2 ⟨hf, by simp [htag]⟩)
    exact hexact.normal

/-! ## Schemas -/

section

variable {backend : Backend} {names : Naming.Table} {schema : Schema} {graph : ReferenceGraph}
  {m : Mapped}

theorem exact_rootType (hbackend : backend.Complete) (hsound : schema.Sound)
    (h : mapSchema backend names schema graph = .ok m) :
    Exact schema False (schema.TakesNull schema.root) schema.root m.rootType := by
  obtain ⟨dss, t, rest, -, hroot, rfl⟩ := mapSchema_eq_ok.1 h
  obtain ⟨inner, hnode, -⟩ := mapRoot_eq_ok.1 hroot
  obtain ⟨null, core, hmaps, rfl⟩ := exists_mapsNode hnode hbackend
  exact exact_of_mapsNode hsound.root hmaps hbackend hmaps.optionality

theorem exactFields_of_mapSchema (hbackend : backend.Complete) (hsound : schema.Sound)
    (h : mapSchema backend names schema graph = .ok m) {header : Header} {fields : List Field}
    {base : Option String} {additional : Bool}
    (hd : .struct header fields base additional ∈ m.declarations) :
    ∃ info required optional, .properties info required optional additional ∈ schema.walk ∧
      header.path = info.path.text ∧ ExactFields schema required optional fields := by
  obtain ⟨owner, body, howns, ⟨n, hn, hbuilds⟩ | halias⟩ := builds_of_mapSchema hbackend hsound h hd
  · have hwalk := howns.mem_walk hn
    obtain ⟨info, required, optional, rfl, hpath, hfields⟩ :=
      hbuilds.exactFields (hsound.of_mem_walk hwalk) hbackend
    exact ⟨info, required, optional, hwalk, hpath, hfields⟩
  · obtain ⟨_, _, _, _, _, -, -, heq, -⟩ := halias
    cases heq

theorem exact_of_synonym (hbackend : backend.Complete) (hsound : schema.Sound)
    (h : mapSchema backend names schema graph = .ok m) {header : Header} {t : TypeExpr}
    (hd : .synonym header t ∈ m.declarations) :
    (∃ e ∈ schema.definitions, header.path = e.2.path.text ∧ Exact schema False False e.2 t) ∨
      (header.path = schema.root.path.text ∧ t = m.rootType) := by
  obtain ⟨owner, body, howns, ⟨n, hn, hbuilds⟩ | halias⟩ := builds_of_mapSchema hbackend hsound h hd
  · cases hbuilds
  · obtain ⟨null, core, inner, id, t', -, hmaps, heq, ht⟩ := halias
    cases heq
    rcases ht with ⟨rfl, howner⟩ | ⟨-, hroot, rfl⟩
    · obtain ⟨name, rfl⟩ := Option.isSome_iff_exists.1 howner
      have hcore := Optionality.refl hmaps.kind_ne_optional
      exact .inl ⟨(name, body), howns, rfl,
        exact_of_mapsNode (hsound.definitions _ howns) hmaps hbackend hcore⟩
    · obtain rfl : body = schema.root := howns
      exact .inr ⟨rfl, hroot⟩

theorem normal_of_mapSchema (hbackend : backend.Complete) (hsound : schema.Sound)
    (h : mapSchema backend names schema graph = .ok m) {d : Declaration}
    (hd : d ∈ m.declarations) : ∀ t ∈ d.types, t.Normal := by
  cases d with
  | enum | union => simp [Declaration.types]
  | struct header fields base additional =>
    obtain ⟨info, required, optional, -, -, hfields⟩ :=
      exactFields_of_mapSchema hbackend hsound h hd
    intro t ht
    obtain ⟨f, hf, rfl⟩ := List.mem_map.1 ht
    exact hfields.normal f hf
  | synonym header target =>
    intro t ht
    rw [List.mem_singleton.1 ht]
    rcases exact_of_synonym hbackend hsound h hd with ⟨e, -, -, hexact⟩ | ⟨-, rfl⟩
    · exact hexact.normal
    · exact (exact_rootType hbackend hsound h).normal

end

/-- Optional types are in normal form and say of every value whether it may be absent or null: of
fields, of items, of definitions, whose names leave null out, and of the root. -/
theorem optionality_of_run {document : Json} {schema : Schema} {rules : Naming.Rules}
    {rootName : Json} {names : Naming.Table} (hdistinct : document.Distinct)
    (hresolve : Schema.resolve document = .ok schema)
    (hassign : Naming.assign rules schema rootName = .ok names) (target : Target)
    (graph : ReferenceGraph) :
    ∃ m, mapSchema { target.backend with rules := rules } names schema graph = .ok m ∧
      (∀ t ∈ Declaration.walkTypes m.declarations ++ m.rootType.walk, t.kind = .optional →
        (t.mayBeAbsent = true ∨ t.mayBeNull = true) ∧ ∀ a ∈ t.args, a.kind ≠ .optional) ∧
      (∀ header fields base additional, .struct header fields base additional ∈ m.declarations →
        ∃ info required optional, .properties info required optional additional ∈ schema.walk ∧
          header.path = info.path.text ∧
          (dataFields fields).map Field.wire = (required ++ optional).map Prod.fst ∧
          (∀ f ∈ dataFields fields, ∃ child, (f.wire, child) ∈ required ++ optional ∧
            Exact schema (f.wire ∈ optional.map Prod.fst) (schema.TakesNull child) child f.type) ∧
          ∀ f ∈ fields, f.isTag = true → f.type.kind ≠ .optional) ∧
      (∀ header t, .synonym header t ∈ m.declarations →
        (∃ e ∈ schema.definitions, header.path = e.2.path.text ∧ t.kind ≠ .optional ∧
          Exact schema False False e.2 t) ∨
        (header.path = schema.root.path.text ∧ t = m.rootType)) ∧
      Exact schema False (schema.TakesNull schema.root) schema.root m.rootType := by
  have hsound := Schema.sound_of_resolve hdistinct hresolve
  have hbackend := target.complete_backend rules
  obtain ⟨m, h⟩ :=
    exists_mapSchema hbackend hsound (Naming.Table.suits_of_assign hassign) graph
  have hroot := exact_rootType hbackend hsound h
  refine ⟨m, h, fun t ht => ?_, fun header fields base additional hd => ?_, fun header t hd => ?_,
    hroot⟩
  · rcases List.mem_append.1 ht with ht | ht
    · obtain ⟨d, hd, ht⟩ := List.mem_flatMap.1 ht
      obtain ⟨t', ht', ht⟩ := List.mem_flatMap.1 ht
      exact normal_of_mapSchema hbackend hsound h hd t' ht' t ht
    · exact hroot.normal t ht
  · obtain ⟨info, required, optional, hwalk, hpath, hfields⟩ :=
      exactFields_of_mapSchema hbackend hsound h hd
    refine ⟨info, required, optional, hwalk, hpath, hfields.keys, hfields.data, ?_⟩
    intro f hf htag
    obtain ⟨value, hvalue⟩ := hfields.tags f hf htag
    rw [hvalue]
    simp [TypeExpr.literal]
  · rcases exact_of_synonym hbackend hsound h hd with ⟨e, he, hpath, hexact⟩ | halias
    · exact .inl ⟨e, he, hpath, hexact.kind_ne_optional, hexact⟩
    · exact .inr halias

/-- A document with a key whose value may be null and a key that may be missing. -/
def memoDocument : Json := .object [
  ("definitions", .object [
    ("note", .object [("type", .string "string"), ("nullable", .bool true)])]),
  ("properties", .object [("head", .object [("ref", .string "note")])]),
  ("optionalProperties", .object [
    ("tail", .object [("elements", .object [("ref", .string "note")])])])]

/-- The nodes of the document. -/
def memoSchema : Schema where
  definitions := [
    ("note", .type ⟨⟨["definitions", "note"]⟩, true, some "note", []⟩ .string)]
  root := .properties ⟨⟨[]⟩, false, none, []⟩
    [("head", .ref ⟨⟨["properties", "head"]⟩, false, none, []⟩ "note")]
    [("tail", .elements ⟨⟨["optionalProperties", "tail"]⟩, false, none, []⟩
      (.ref ⟨⟨["optionalProperties", "tail", "elements"]⟩, false, none, []⟩ "note"))] false

/-- The names of the schema. -/
def memoNames : Naming.Table where
  root := "Memo"
  definitions := [("note", "Note")]
  nodes := [(⟨[]⟩, .struct "Memo" [⟨"Head", "head"⟩, ⟨"Tail", "tail"⟩])]

theorem optionality_memo :
    memoDocument.Distinct ∧ Schema.resolve memoDocument = .ok memoSchema ∧
      Naming.assign {} memoSchema (.string "memo") = .ok memoNames ∧
      ∃ m, mapSchema { Target.go.backend with rules := {} } memoNames memoSchema
          (.ofSchema memoSchema) = .ok m ∧
        (∀ header t, .synonym header t ∈ m.declarations → t.kind ≠ .optional) ∧
        ∀ header fields base additional, .struct header fields base additional ∈ m.declarations →
          (dataFields fields).map Field.wire = ["head", "tail"] ∧
          ∀ f ∈ dataFields fields, f.type.kind = .optional ∧
            (f.type.mayBeAbsent = true ↔ f.wire = "tail") ∧
            (f.type.mayBeNull = true ↔ f.wire = "head") := by
  have hdistinct : memoDocument.Distinct := by simp [memoDocument, Json.keys]
  have hresolve : Schema.resolve memoDocument = .ok memoSchema := by with_unfolding_all rfl
  have hassign : Naming.assign {} memoSchema (.string "memo") = .ok memoNames := by
    with_unfolding_all rfl
  obtain ⟨m, h, -, hstructs, hsynonyms, hroot⟩ :=
    optionality_of_run hdistinct hresolve hassign .go (.ofSchema memoSchema)
  refine ⟨hdistinct, hresolve, hassign, m, h, fun header t hd => ?_,
    fun header fields base additional hd => ?_⟩
  · rcases hsynonyms header t hd with ⟨e, -, -, hkind, -⟩ | ⟨-, rfl⟩
    · exact hkind
    · have hnull : ¬memoSchema.TakesNull memoSchema.root := by
        rintro (hnull | ⟨_, _, hroot, -⟩)
        · cases hnull
        · cases hroot
      rw [eq_false hnull] at hroot
      exact hroot.kind_ne_optional
  · obtain ⟨info, required, optional, hwalk, -, hkeys, hdata, -⟩ := hstructs _ _ _ _ hd
    have hnode : Node.properties info required optional additional = memoSchema.root := by
      rw [Schema.walk_eq_append] at hwalk
      simpa [memoSchema, Node.preorder, Node.preorderEntries] using hwalk
    cases hnode
    refine ⟨hkeys, fun f hf => ?_⟩
    obtain ⟨child, hchild, hexact⟩ := hdata f hf
    have hmissing : f.wire ∈ ["tail"] ↔ f.wire = "tail" := List.mem_singleton
    rcases List.mem_cons.1 hchild with hchild | hchild
    · obtain ⟨hwire, rfl⟩ := Prod.mk.inj hchild
      have hnull : memoSchema.TakesNull
          (.ref ⟨⟨["properties", "head"]⟩, false, none, []⟩ "note") :=
        .inr ⟨_, _, rfl, by with_unfolding_all rfl⟩
      obtain ⟨hkind, habsent, hnulls⟩ := hexact.flags (.inr hnull)
      exact ⟨hkind, habsent.trans hmissing, hnulls.trans (iff_of_true hnull hwire)⟩
    · obtain ⟨hwire, rfl⟩ := Prod.mk.inj (List.mem_singleton.1 hchild)
      obtain ⟨hkind, habsent, hnulls⟩ := hexact.flags (.inl (hmissing.2 hwire))
      refine ⟨hkind, habsent.trans hmissing, hnulls.trans (iff_of_false ?_ (by simp [hwire]))⟩
      rintro (hnull | ⟨_, _, href, -⟩)
      · cases hnull
      · cases href

end Mapping

end Typegen
