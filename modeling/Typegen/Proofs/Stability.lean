import Typegen.Proofs.Scopes

/-!
# Names that do not change

Identifiers are handed out in order, so what comes later has no influence on what came before:
definitions keep all their names when further definitions are put behind them, whatever becomes of
the root.  The fields of a struct, and the members of an enumeration where they are not named like
types, are named in a namespace of their own and depend on nothing but their keys.
-/

namespace Typegen.Naming

open Schema (Node)

variable {r : Rules}

/-! ## Names of earlier definitions -/

/-- Definitions in front are named as if no others followed. -/
theorem nameDefinitions_append_eq_ok {types left : Namespace} {entries more : List (String × Node)}
    {allIds : List (String × String)} {allNodes : List (Pointer × Names)}
    (h : nameDefinitions r types (entries ++ more) = .ok (allIds, allNodes, left)) :
    ∃ ids nodes types' moreIds moreNodes,
      nameDefinitions r types entries = .ok (ids, nodes, types') ∧
      nameDefinitions r types' more = .ok (moreIds, moreNodes, left) ∧
      allIds = ids ++ moreIds ∧ allNodes = nodes ++ moreNodes := by
  induction entries generalizing types allIds allNodes with
  | nil => exact ⟨[], [], types, allIds, allNodes, rfl, h, rfl, rfl⟩
  | cons e entries ih =>
    obtain ⟨id, own, mid, ids', others, hbody, hrest, rfl, rfl⟩ := nameDefinitions_cons h
    obtain ⟨ids, nodes, types', moreIds, moreNodes, hids, hmore, rfl, rfl⟩ := ih hrest
    refine ⟨(e.1, id) :: ids, own ++ nodes, types', moreIds, moreNodes, ?_, hmore, rfl,
      (List.append_assoc _ _ _).symm⟩
    simp only [nameDefinitions, bind_eq_ok, pure_eq_ok]
    exact ⟨_, hbody, _, hids, rfl⟩

section

variable {schema schema' : Schema} {rootName rootName' : Json} {t t' : Table}

/-- The definitions are named before the root. -/
theorem exists_nameDefinitions_of_assign (h : assign r schema rootName = .ok t) :
    ∃ nodes others left, nameDefinitions r (r.freshNames r.reserved) schema.definitions =
      .ok (t.definitions, nodes, left) ∧ t.nodes = nodes ++ others := by
  simp only [assign, bind_eq_ok, pure_eq_ok] at h
  obtain ⟨⟨ids, nodes, types⟩, hdefinitions, text, -, ⟨id, others, left⟩, -, rfl⟩ := h
  exact ⟨nodes, others, types, hdefinitions, rfl⟩

/-- What is named at a node of some definitions in front is found among the names of these. -/
theorem lookup_of_front (hsound : schema.Sound) (hsuits : t.Suits schema)
    {front more : List (String × Node)} (hfront : schema.definitions = front ++ more)
    {types left : Namespace} {ids : List (String × String)} {nodes others : List (Pointer × Names)}
    (hnames : nameDefinitions r types front = .ok (ids, nodes, left))
    (hnodes : t.nodes = nodes ++ others) {n : Node}
    (hn : n ∈ (front.map Prod.snd).flatMap Node.preorder) :
    t.nodes.lookup n.path = nodes.lookup n.path := by
  rw [hnodes, List.lookup_append]
  cases hlookup : nodes.lookup n.path with
  | some names => rfl
  | none =>
    -- No entry of the table can be at the place of a node that declares nothing.
    have hwalk : n ∈ schema.walk := by
      rw [Schema.walk_eq_append, hfront, List.map_append, List.flatMap_append]
      exact List.mem_append_left _ (List.mem_append_left _ hn)
    have hunnamed : n.isNamed = false := by
      by_contra hnamed
      have hkey : n.path ∈ nodes.map Prod.fst := by
        rw [(map_fst_of_nameDefinitions hnames).2]
        exact List.mem_map_of_mem (List.mem_filter.2 ⟨hn, by simpa using hnamed⟩)
      obtain ⟨names, hsome⟩ := exists_lookup_of_mem_keys hkey
      rw [hlookup] at hsome
      cases hsome
    rw [Option.none_or]
    by_contra hother
    obtain ⟨names, hsome⟩ := Option.ne_none_iff_exists'.1 hother
    have hkey : n.path ∈ t.nodes.map Prod.fst := by
      rw [hnodes, List.map_append]
      exact List.mem_append_right _ (List.mem_map_of_mem (f := Prod.fst) (mem_of_lookup hsome))
    rw [hsuits.nodes] at hkey
    obtain ⟨m, hm, hpath⟩ := List.mem_map.1 hkey
    obtain ⟨hm, hnamed⟩ := List.mem_filter.1 hm
    obtain rfl := List.inj_on_of_nodup_map hsound.nodup_walk_paths hm hwalk hpath
    rw [hunnamed] at hnamed
    cases hnamed

/-- Definitions that others are put behind keep all their names. -/
theorem names_of_front (hsound : schema.Sound) (hsound' : schema'.Sound)
    (h : assign r schema rootName = .ok t) (h' : assign r schema' rootName' = .ok t')
    {more : List (String × Node)} (hmore : schema'.definitions = schema.definitions ++ more) :
    t.definitions <+: t'.definitions ∧
      ∀ e ∈ schema.definitions, ∀ n ∈ e.2.preorder,
        t.nodes.lookup n.path = t'.nodes.lookup n.path := by
  obtain ⟨nodes, others, left, hnames, hnodes⟩ := exists_nameDefinitions_of_assign h
  obtain ⟨allNodes, others', left', hnames', hnodes'⟩ := exists_nameDefinitions_of_assign h'
  rw [hmore] at hnames'
  obtain ⟨ids, front, mid, moreIds, moreNodes, hfront, -, hids, rfl⟩ :=
    nameDefinitions_append_eq_ok hnames'
  obtain ⟨rfl, rfl, rfl⟩ : t.definitions = ids ∧ nodes = front ∧ left = mid := by
    simpa using hnames.symm.trans hfront
  refine ⟨⟨moreIds, hids.symm⟩, fun e he n hn => ?_⟩
  have hmem : n ∈ (schema.definitions.map Prod.snd).flatMap Node.preorder :=
    List.mem_flatMap.2 ⟨e.2, List.mem_map_of_mem he, hn⟩
  rw [List.append_assoc] at hnodes'
  rw [lookup_of_front hsound (Table.suits_of_assign h) (List.append_nil _).symm hnames hnodes hmem,
    lookup_of_front hsound' (Table.suits_of_assign h') hmore hnames hnodes' hmem]

end

/-! ## Names in scopes of their own -/

theorem nameFields_place {own : Namespace} {path path' : Option String} {keys : List String}
    {fields fields' : List FieldName} (h : nameFields r own path keys = .ok fields)
    (h' : nameFields r own path' keys = .ok fields') : fields = fields' := by
  induction keys generalizing own fields fields' with
  | nil => exact Except.ok.inj (h.symm.trans h')
  | cons key keys ih =>
    simp only [nameFields, bind_eq_ok, pure_eq_ok] at h h'
    obtain ⟨raw, hraw, ⟨id, left⟩, hclaim, rest, hrest, rfl⟩ := h
    obtain ⟨raw', hraw', ⟨id', left'⟩, hclaim', rest', hrest', rfl⟩ := h'
    obtain rfl := Except.ok.inj (hraw.symm.trans hraw')
    obtain ⟨rfl, rfl⟩ := Prod.mk.inj (Namespace.claim_place hclaim hclaim')
    rw [ih hrest hrest']

theorem nameMembers_place {own : Namespace} {path path' : Option String} {values : List String}
    {members members' : List (String × String)} (h : nameMembers r own path values = .ok members)
    (h' : nameMembers r own path' values = .ok members') : members = members' := by
  induction values generalizing own members members' with
  | nil => exact Except.ok.inj (h.symm.trans h')
  | cons value values ih =>
    simp only [nameMembers, bind_eq_ok, pure_eq_ok] at h h'
    obtain ⟨raw, hraw, ⟨id, left⟩, hclaim, rest, hrest, rfl⟩ := h
    obtain ⟨raw', hraw', ⟨id', left'⟩, hclaim', rest', hrest', rfl⟩ := h'
    obtain rfl := Except.ok.inj (hraw.symm.trans hraw')
    obtain ⟨rfl, rfl⟩ := Prod.mk.inj (Namespace.claim_place hclaim hclaim')
    rw [ih hrest hrest']

section

variable {schema : Schema} {rootName : Json} {t : Table} {info : Schema.Info}

/-- A struct is a branch of unions with one tag only. -/
theorem tag_unique (hsound : schema.Sound) (h : assign r schema rootName = .ok t)
    {required optional : List (String × Node)} {additional : Bool} {tag tag' : String}
    (htag : schema.HasBranch tag (.properties info required optional additional))
    (htag' : schema.HasBranch tag' (.properties info required optional additional)) :
    tag = tag' := by
  have hnodes := (Table.suits_of_assign h).nodup_nodes hsound
  obtain ⟨s, hnode, hnamed, hs⟩ := exists_namedIn_branch h htag
  obtain ⟨s', hnode', hnamed', hs'⟩ := exists_namedIn_branch h htag'
  obtain ⟨type, fields, -, hentry, hkeys, -⟩ := hnamed.exists_fields hnode
  obtain ⟨type', fields', -, hentry', hkeys', -⟩ := hnamed'.exists_fields hnode'
  cases (lookup_of_mem hnodes hentry).symm.trans (lookup_of_mem hnodes hentry')
  rw [hkeys, hs, hs'] at hkeys'
  exact (List.cons.inj hkeys').1

/-- The fields of a struct are those of its keys, behind the tag of the union that it is a branch
of. -/
theorem nameFields_of_assign (hsound : schema.Sound) (h : assign r schema rootName = .ok t)
    {required optional : List (String × Node)} {additional : Bool}
    (hn : Node.properties info required optional additional ∈ schema.walk) {tag : Option String}
    (htag : ∀ k, tag = some k ↔
      schema.HasBranch k (.properties info required optional additional)) :
    ∃ path, nameFields r (r.freshNames r.fieldReserved) path
      (tag.toList ++ (required ++ optional).map Prod.fst) = .ok (t.fieldsOf info.path) := by
  have hnodes := (Table.suits_of_assign h).nodup_nodes hsound
  obtain ⟨s, hnode, hnamed, hs⟩ : ∃ s : Site,
      s.node = .properties info required optional additional ∧ s.NamedIn r t.nodes ∧
        s.tag = tag := by
    cases tag with
    | some k => exact exists_namedIn_branch h ((htag k).1 rfl)
    | none =>
      obtain ⟨s, hnode, hnamed, htags⟩ := exists_namedIn h hn
      refine ⟨s, hnode, hnamed, ?_⟩
      cases hs : s.tag with
      | none => rfl
      | some k => exact absurd ((htag k).2 (htags k hs)) (by simp)
  obtain ⟨taken, result, left, hsite, hmem⟩ := hnamed
  obtain ⟨type, fields, rfl, hfields⟩ := nameSite_properties hsite hnode
  have hentry := hmem _ rfl
  rw [hnode] at hentry
  rw [hs] at hfields
  exact ⟨_, (fieldsOf_eq hnodes hentry).symm ▸ hfields⟩

/-- The members of an enumeration that are not named like types are those of its values. -/
theorem nameMembers_of_assign (hsound : schema.Sound) (h : assign r schema rootName = .ok t)
    (hqualify : r.qualifyMembers.isTruthy = false) {values : List String}
    (hn : Node.enum info values ∈ schema.walk) :
    ∃ path members, t.at? Names.members? info.path = .ok members ∧
      nameMembers r (r.freshNames r.reserved) path values = .ok members := by
  have hnodes := (Table.suits_of_assign h).nodup_nodes hsound
  obtain ⟨s, hnode, ⟨taken, result, left, hsite, hmem⟩, -⟩ := exists_namedIn h hn
  simp only [nameSite, hnode, hqualify, bind_eq_ok, pure_eq_ok, Prod.mk.injEq, Bool.false_eq_true,
    if_false] at hsite
  obtain ⟨⟨type, types'⟩, -, members, hmembers, rfl, -⟩ := hsite
  have hentry := hmem _ rfl
  rw [hnode] at hentry
  exact ⟨_, members, (Table.at?_eq_ok hnodes).2 ⟨_, hentry, rfl⟩, hmembers⟩

end

/-- Names do not change.  Definitions that further definitions are put behind keep all their names,
whatever the root is.  Structs with the same keys that are branches by the same tag, or no branches
at all, have the same fields in any two schemas, and enumerations with the same values have the same
members unless these are named like types. -/
theorem names_stable {document document' : Json} {schema schema' : Schema} {r : Rules}
    {rootName rootName' : Json} {t t' : Table}
    (hdistinct : document.Distinct) (hdistinct' : document'.Distinct)
    (hresolve : Schema.resolve document = .ok schema)
    (hresolve' : Schema.resolve document' = .ok schema')
    (hassign : assign r schema rootName = .ok t) (hassign' : assign r schema' rootName' = .ok t') :
    (∀ more, schema'.definitions = schema.definitions ++ more → ∀ e ∈ schema.definitions,
      (∃ id, t.definition e.1 = .ok id ∧ t'.definition e.1 = .ok id) ∧
      ∀ n ∈ e.2.preorder,
        t.typeName n.path = t'.typeName n.path ∧
        t.at? Names.fields? n.path = t'.at? Names.fields? n.path ∧
        t.tagField n.path = t'.tagField n.path ∧
        t.at? Names.members? n.path = t'.at? Names.members? n.path) ∧
    (∀ info required optional additional info' required' optional' additional',
      Node.properties info required optional additional ∈ schema.walk →
      Node.properties info' required' optional' additional' ∈ schema'.walk →
      (required ++ optional).map Prod.fst = (required' ++ optional').map Prod.fst →
      (∀ tag, schema.HasBranch tag (.properties info required optional additional) ↔
        schema'.HasBranch tag (.properties info' required' optional' additional')) →
      t.fieldsOf info.path = t'.fieldsOf info'.path) ∧
    (r.qualifyMembers.isTruthy = false → ∀ info info' values,
      Node.enum info values ∈ schema.walk → Node.enum info' values ∈ schema'.walk →
      t.at? Names.members? info.path = t'.at? Names.members? info'.path) := by
  have hsound := Schema.sound_of_resolve hdistinct hresolve
  have hsound' := Schema.sound_of_resolve hdistinct' hresolve'
  refine ⟨fun more hmore e he => ?_, ?_, ?_⟩
  · obtain ⟨hids, hnodes⟩ := names_of_front hsound hsound' hassign hassign' hmore
    have hsuits := Table.suits_of_assign hassign
    have hsuits' := Table.suits_of_assign hassign'
    refine ⟨?_, fun n hn => ?_⟩
    · obtain ⟨⟨_, id⟩, hid, rfl, -⟩ := exists_of_mem_left hsuits.own he
      have hkeys : (t.definitions.map Prod.fst).Nodup := hsuits.definitions ▸ hsound.nodup_names
      have hkeys' : (t'.definitions.map Prod.fst).Nodup :=
        hsuits'.definitions ▸ hsound'.nodup_names
      exact ⟨id, (Table.definition_eq_ok hkeys).2 hid,
        (Table.definition_eq_ok hkeys').2 (hids.subset hid)⟩
    · have hlookup := hnodes e he n hn
      simp only [Table.typeName, Table.tagField, Table.at?, hlookup, and_self]
  · intro info required optional additional info' required' optional' additional' hn hn' hkeys htags
    obtain ⟨tag, htag⟩ : ∃ tag : Option String, ∀ k, tag = some k ↔
        schema.HasBranch k (.properties info required optional additional) := by
      by_cases hbranch : ∃ k, schema.HasBranch k (.properties info required optional additional)
      · obtain ⟨k, hk⟩ := hbranch
        refine ⟨some k, fun k' => ⟨?_, fun hk' => ?_⟩⟩
        · rintro ⟨⟩
          exact hk
        · rw [tag_unique hsound hassign hk hk']
      · exact ⟨none, fun k => ⟨by simp, fun hk => absurd ⟨k, hk⟩ hbranch⟩⟩
    obtain ⟨path, hfields⟩ := nameFields_of_assign hsound hassign hn htag
    obtain ⟨path', hfields'⟩ := nameFields_of_assign hsound' hassign' hn' fun k =>
      (htag k).trans (htags k)
    rw [← hkeys] at hfields'
    exact nameFields_place hfields hfields'
  · intro hqualify info info' values hn hn'
    obtain ⟨path, members, hat, hmembers⟩ := nameMembers_of_assign hsound hassign hqualify hn
    obtain ⟨path', members', hat', hmembers'⟩ :=
      nameMembers_of_assign hsound' hassign' hqualify hn'
    rw [hat, hat', nameMembers_place hmembers hmembers']

/-- The sketch with a further definition and another root. -/
def grownDocument : Json := .object [
  ("definitions", .object [
    ("color", .object [
      ("enum", .array [.string "red", .string "class"]), ("nullable", .bool true)]),
    ("shade", .object [("ref", .string "color")]),
    ("sketch", .object [
      ("discriminator", .string "kind"),
      ("mapping", .object [
        ("spot", .object [("optionalProperties", .object [("tint", .object [])])])])])]),
  ("elements", .object [("ref", .string "sketch")])]

/-- The nodes of the grown sketch. -/
def grownSchema : Schema where
  definitions := sketchSchema.definitions ++ [
    ("sketch", .discriminator ⟨⟨["definitions", "sketch"]⟩, false, some "sketch", []⟩ "kind" [
      ("spot", .properties ⟨⟨["definitions", "sketch", "mapping", "spot"]⟩, false, none, []⟩ []
        [("tint", .empty ⟨⟨["definitions", "sketch", "mapping", "spot", "optionalProperties",
          "tint"]⟩, false, none, []⟩)] false)])]
  root := .elements ⟨⟨[]⟩, false, none, []⟩ (.ref ⟨⟨["elements"]⟩, false, none, []⟩ "sketch")

/-- The rules of the sketch, but members are not named like types. -/
def looseRules : Rules := { tightRules with qualifyMembers := .bool false }

/-- The names of the sketch by these rules. -/
def looseNames : Table where
  root := "sketch"
  definitions := [("color", "color_"), ("shade", "shade")]
  nodes := [
    (⟨["definitions", "color"]⟩, .enum "color_" [("red", "Red"), ("class", "Class")]),
    (⟨[]⟩, .union "sketch" ⟨"kind_2", "kind"⟩),
    (⟨["mapping", "dot"]⟩, .struct "sketch_" [⟨"kind_2", "kind"⟩, ⟨"tint", "tint"⟩]),
    (⟨["mapping", "dash"]⟩, .struct "sketch2" [⟨"kind_2", "kind"⟩, ⟨"ends", "ends"⟩])]

/-- The names of the grown sketch by these rules. -/
def grownNames : Table where
  root := "list"
  definitions := [("color", "color_"), ("shade", "shade"), ("sketch", "sketch")]
  nodes := [
    (⟨["definitions", "color"]⟩, .enum "color_" [("red", "Red"), ("class", "Class")]),
    (⟨["definitions", "sketch"]⟩, .union "sketch" ⟨"kind_2", "kind"⟩),
    (⟨["definitions", "sketch", "mapping", "spot"]⟩,
      .struct "sketch_" [⟨"kind_2", "kind"⟩, ⟨"tint", "tint"⟩])]

theorem names_stable_sketch :
    sketchDocument.Distinct ∧ grownDocument.Distinct ∧
      Schema.resolve sketchDocument = .ok sketchSchema ∧
      Schema.resolve grownDocument = .ok grownSchema ∧
      assign looseRules sketchSchema (.string "sketch") = .ok looseNames ∧
      assign looseRules grownSchema (.string "list") = .ok grownNames ∧
      looseNames.typeName ⟨["definitions", "color"]⟩ =
        grownNames.typeName ⟨["definitions", "color"]⟩ ∧
      looseNames.fieldsOf ⟨["mapping", "dot"]⟩ =
        grownNames.fieldsOf ⟨["definitions", "sketch", "mapping", "spot"]⟩ ∧
      looseNames.at? Names.members? ⟨["definitions", "color"]⟩ =
        grownNames.at? Names.members? ⟨["definitions", "color"]⟩ := by
  have hdistinct' : grownDocument.Distinct := by simp [grownDocument, Json.keys]
  have hresolve' : Schema.resolve grownDocument = .ok grownSchema := by with_unfolding_all rfl
  have hassign : assign looseRules sketchSchema (.string "sketch") = .ok looseNames := by
    with_unfolding_all rfl
  have hassign' : assign looseRules grownSchema (.string "list") = .ok grownNames := by
    with_unfolding_all rfl
  have hsound := Schema.sound_of_resolve distinct_sketch resolve_sketch
  have hsound' := Schema.sound_of_resolve hdistinct' hresolve'
  obtain ⟨hfront, hstructs, henums⟩ :=
    names_stable distinct_sketch hdistinct' resolve_sketch hresolve' hassign hassign'
  have hroot := Schema.root_mem_walk sketchSchema
  have hunion : (grownSchema.definitions[2].2) ∈ grownSchema.walk :=
    Schema.mem_walk_of_definition (List.getElem_mem (by decide))
  have hcolor : ("color", sketchSchema.definitions[0].2) ∈ sketchSchema.definitions :=
    List.mem_cons_self
  refine ⟨distinct_sketch, hdistinct', resolve_sketch, hresolve', hassign, hassign', ?_, ?_, ?_⟩
  · exact ((hfront _ rfl _ hcolor).2 _ (Node.mem_preorder_self _)).1
  · have hdot := (⟨_, _, "dot", hroot, List.mem_cons_self⟩ : sketchSchema.HasBranch "kind" _)
    have hspot := (⟨_, _, "spot", hunion, List.mem_cons_self⟩ : grownSchema.HasBranch "kind" _)
    refine hstructs _ _ _ _ _ _ _ _ (Schema.mem_visit_of_child hroot List.mem_cons_self)
      (Schema.mem_visit_of_child hunion List.mem_cons_self) rfl fun tag => ⟨?_, ?_⟩
    · intro htag
      exact tag_unique hsound hassign hdot htag ▸ hspot
    · intro htag
      exact tag_unique hsound' hassign' hspot htag ▸ hdot
  · exact henums rfl _ _ _ (Schema.mem_walk_of_definition hcolor)
      (Schema.mem_walk_of_definition (s := grownSchema) List.mem_cons_self)

end Typegen.Naming
