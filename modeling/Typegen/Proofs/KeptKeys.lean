import Typegen.Proofs.LegalNames
import Typegen.Proofs.Scopes

/-!
# Fields that are called like their keys

Where keys are kept as they are, no word is reserved for fields and names are never cut, a field is
called like its key (`identifier_of_fieldName`): the keys of a struct, with the tag of a branch among
them, differ from each other, so each of them is free when it is claimed.  The rules of TypeScript are
of that kind, and they name every schema (`keys_verbatim`).
-/

namespace Typegen

/-- The rules leave keys alone. -/
structure Naming.Rules.KeepsKeys (r : Naming.Rules) : Prop where
  fieldCase : r.fieldCase = .preserve
  fieldReserved : r.fieldReserved.words = []
  maxLength : r.maxLength = .null

theorem Target.TypeScript.keepsKeys_rules : Target.TypeScript.rules.KeepsKeys := ⟨rfl, rfl, rfl⟩

namespace Naming

open Schema (Node)

variable {r : Rules}

/-- A name that is free is handed out as it is. -/
theorem Rules.KeepsKeys.claim_eq (hr : r.KeepsKeys) {taken : List String} {name : String}
    (hname : name ∉ taken) (path : Option String) :
    ({ r.freshNames r.fieldReserved with taken := taken } : Namespace).claim name path =
      .ok (name, { r.freshNames r.fieldReserved with taken := name :: taken }) := by
  simp [Namespace.claim, Namespace.base, Namespace.isFree, Rules.freshNames, lengthLimit, truncate,
    ok_bind, pure_eq_ok, hr.fieldReserved, hr.maxLength, hname]

theorem Rules.KeepsKeys.fieldIdentifier_eq (hr : r.KeepsKeys) (key : String) :
    r.fieldIdentifier key = .ok key := by
  rw [Rules.fieldIdentifier, hr.fieldCase, Rules.finish, if_pos rfl, Text.Case.convert,
    Text.Case.convertChars, String.ofList_toList]

theorem identifier_eq_key_of_nameFields (hr : r.KeepsKeys) (taken : List String)
    {keys : List String} (hkeys : keys.Nodup) (hfree : ∀ key ∈ keys, key ∉ taken)
    {path : Option String} {fields : List FieldName}
    (h : nameFields r { r.freshNames r.fieldReserved with taken := taken } path keys =
      .ok fields) : ∀ f ∈ fields, f.identifier = f.key := by
  induction keys generalizing taken fields with
  | nil =>
    rw [nameFields, Except.ok.injEq] at h
    simp [← h]
  | cons key keys ih =>
    rw [List.nodup_cons] at hkeys
    rw [List.forall_mem_cons] at hfree
    rw [nameFields, hr.fieldIdentifier_eq, ok_bind, hr.claim_eq hfree.1, ok_bind] at h
    obtain ⟨rest, hrest, h⟩ := bind_eq_ok.1 h
    obtain rfl := pure_eq_ok.1 h
    refine List.forall_mem_cons.2 ⟨rfl, ih _ hkeys.2 (fun k hk htaken => ?_) hrest⟩
    rcases List.mem_cons.1 htaken with rfl | htaken
    · exact hkeys.1 hk
    · exact hfree.2 k hk htaken

/-- The field for a key is called like the key. -/
theorem identifier_of_fieldName (hr : r.KeepsKeys) {schema : Schema} (hsound : schema.Sound)
    {rootName : Json} {t : Table} (h : assign r schema rootName = .ok t) {path : Pointer}
    {key : String} {f : FieldName} (hf : t.fieldName path key = .ok f) : f.identifier = key := by
  have hsuits := Table.suits_of_assign h
  have hnodes := hsuits.nodup_nodes hsound
  obtain ⟨type, fields, hentry, hfind⟩ := (Table.fieldName_eq_ok hnodes).1 hf
  have hkey : f.key = key := by simpa using List.find?_some hfind
  have hpath := List.mem_map_of_mem (f := Prod.fst) hentry
  rw [hsuits.nodes] at hpath
  obtain ⟨n, hn, rfl⟩ := List.mem_map.1 hpath
  obtain ⟨hwalk, hnamed⟩ := List.mem_filter.1 hn
  have hcovers := hsuits.covers n hwalk
  have hlookup := lookup_of_mem hnodes hentry
  cases n with
  | enum | discriminator =>
    obtain ⟨_, _, hother, -⟩ := hcovers
    cases hlookup.symm.trans (lookup_of_mem hnodes hother)
  | properties info required optional additional =>
    obtain ⟨s, hnode, ⟨taken, result, left, hsite, hmem⟩, htags⟩ := exists_namedIn h hwalk
    obtain ⟨type', fields', rfl, hfields⟩ := nameSite_properties hsite hnode
    have hentry' := hmem _ rfl
    rw [hnode] at hentry'
    cases hlookup.symm.trans (lookup_of_mem hnodes hentry')
    have hkeys := nodup_keys_of_site hsound hnode (hnode ▸ hwalk) (hnode ▸ htags)
    rw [← hkey]
    exact identifier_eq_key_of_nameFields hr [] hkeys (by simp) hfields f
      (List.mem_of_find?_eq_some hfind)
  | empty | ref | type | elements | values => cases hnamed

/-! ## The fields of a table -/

section Table

variable {schema : Schema} {rootName : Json} {t : Table} {info : Schema.Info}
  {required optional : List (String × Node)} {additional : Bool}

/-- The fields that are named at a site are found, and called like their keys. -/
theorem Site.NamedIn.fieldName_eq {s : Site} (hnamed : s.NamedIn r t.nodes) (hr : r.KeepsKeys)
    (hsound : schema.Sound) (h : assign r schema rootName = .ok t)
    (hnode : s.node = .properties info required optional additional) (hwalk : s.node ∈ schema.walk)
    (htags : ∀ tag, s.tag = some tag → schema.HasBranch tag s.node) :
    ∀ key ∈ s.tag.toList ++ (required ++ optional).map Prod.fst,
      t.fieldName info.path key = .ok ⟨key, key⟩ := by
  have hnodes := (Table.suits_of_assign h).nodup_nodes hsound
  obtain ⟨type, fields, -, hentry, hkeys, -⟩ := hnamed.exists_fields hnode
  have hnodup : (fields.map FieldName.key).Nodup := by
    rw [hkeys]
    exact nodup_keys_of_site hsound hnode hwalk htags
  intro key hkey
  rw [← hkeys] at hkey
  obtain ⟨f, hf, rfl⟩ := List.mem_map.1 hkey
  have hfound := fieldName_of_mem hnodes hentry hnodup hf
  have hidentifier := identifier_of_fieldName hr hsound h hfound
  rw [hfound]
  exact congrArg Except.ok (congrArg (FieldName.mk · f.key) hidentifier)

theorem fieldName_of_key (hr : r.KeepsKeys) (hsound : schema.Sound)
    (h : assign r schema rootName = .ok t)
    (hwalk : Node.properties info required optional additional ∈ schema.walk) {key : String}
    (hkey : key ∈ (required ++ optional).map Prod.fst) :
    t.fieldName info.path key = .ok ⟨key, key⟩ := by
  obtain ⟨s, hnode, hnamed, htags⟩ := exists_namedIn h hwalk
  exact hnamed.fieldName_eq hr hsound h hnode (hnode ▸ hwalk) (hnode ▸ htags) key
    (List.mem_append_right _ hkey)

theorem fieldName_of_branch (hr : r.KeepsKeys) (hsound : schema.Sound)
    (h : assign r schema rootName = .ok t) {tag : String}
    (hbranch : schema.HasBranch tag (.properties info required optional additional)) :
    t.fieldName info.path tag = .ok ⟨tag, tag⟩ := by
  obtain ⟨s, hnode, hnamed, htag⟩ := exists_namedIn_branch h hbranch
  have hwalk : s.node ∈ schema.walk := by
    obtain ⟨_, _, _, hunion, hvalue⟩ := hbranch
    rw [hnode]
    exact Schema.mem_visit_of_child hunion (List.mem_map_of_mem hvalue)
  refine hnamed.fieldName_eq hr hsound h hnode hwalk (fun tag' htag' => ?_) tag (by simp [htag])
  obtain rfl := Option.some.inj (htag.symm.trans htag')
  rwa [hnode]

theorem tagField_of_union (hr : r.KeepsKeys) (hsound : schema.Sound)
    (h : assign r schema rootName = .ok t) {tag : String} {mapping : List (String × Node)}
    (hwalk : Node.discriminator info tag mapping ∈ schema.walk) :
    t.tagField info.path = .ok ⟨tag, tag⟩ := by
  have hnodes := (Table.suits_of_assign h).nodup_nodes hsound
  obtain ⟨s, hnode, ⟨taken, result, left, hsite, hmem⟩, -⟩ := exists_namedIn h hwalk
  -- The tag of a union is the first name of a namespace in which nothing is taken.
  have hclaim : ∀ path, (r.freshNames r.fieldReserved).claim tag path =
      .ok (tag, { r.freshNames r.fieldReserved with taken := [tag] }) :=
    fun path => hr.claim_eq List.not_mem_nil path
  simp only [nameSite, hnode, hr.fieldIdentifier_eq, ok_bind, hclaim] at hsite
  obtain ⟨⟨type, types⟩, -, hsite⟩ := bind_eq_ok.1 hsite
  obtain rfl : some (.union type ⟨tag, tag⟩) = result := (Prod.mk.inj (pure_eq_ok.1 hsite)).1
  have hentry := hmem _ rfl
  rw [hnode] at hentry
  exact (Table.tagField_eq_ok hnodes).2 ⟨type, hentry⟩

end Table

/-- The rules of TypeScript name every resolved schema, and none of its keys is renamed: the field for
a key of a struct, the field for the tag of a branch and the tag of a union are called like the key,
whatever it is. -/
theorem keys_verbatim {document : Json} {schema : Schema} (hdistinct : document.Distinct)
    (hresolve : Schema.resolve document = .ok schema) (rootName : String) :
    ∃ t, assign Target.TypeScript.rules schema (.string rootName) = .ok t ∧
      (∀ info required optional additional,
        Node.properties info required optional additional ∈ schema.walk →
        (∀ key ∈ (required ++ optional).map Prod.fst,
          t.fieldName info.path key = .ok ⟨key, key⟩) ∧
        ∀ tag, schema.HasBranch tag (.properties info required optional additional) →
          t.fieldName info.path tag = .ok ⟨tag, tag⟩) ∧
      ∀ info tag mapping, Node.discriminator info tag mapping ∈ schema.walk →
        t.tagField info.path = .ok ⟨tag, tag⟩ := by
  have hsound := Schema.sound_of_resolve hdistinct hresolve
  have hr := Target.TypeScript.keepsKeys_rules
  obtain ⟨t, h⟩ := exists_assign (unbounded_rules .typescript) schema rootName
  refine ⟨t, h, fun info required optional additional hwalk => ⟨fun key hkey => ?_,
    fun tag hbranch => ?_⟩, fun info tag mapping hwalk => ?_⟩
  · exact fieldName_of_key hr hsound h hwalk hkey
  · exact fieldName_of_branch hr hsound h hbranch
  · exact tagField_of_union hr hsound h hwalk

/-- A union with a tag that is a reserved word and a branch with keys that are empty, reserved, alike
but for their case, and alike but for a digit. -/
def touchyDocument : Json := .object [
  ("discriminator", .string "class"),
  ("mapping", .object [
    ("x", .object [
      ("properties", .object [("", .object []), ("a2", .object []), ("a", .object [])]),
      ("optionalProperties", .object [("A", .object []), ("if", .object [])])])])]

/-- The branch of the union. -/
def touchyBranch : Node :=
  .properties ⟨⟨["mapping", "x"]⟩, false, none, []⟩
    [("", .empty ⟨⟨["mapping", "x", "properties", ""]⟩, false, none, []⟩),
      ("a2", .empty ⟨⟨["mapping", "x", "properties", "a2"]⟩, false, none, []⟩),
      ("a", .empty ⟨⟨["mapping", "x", "properties", "a"]⟩, false, none, []⟩)]
    [("A", .empty ⟨⟨["mapping", "x", "optionalProperties", "A"]⟩, false, none, []⟩),
      ("if", .empty ⟨⟨["mapping", "x", "optionalProperties", "if"]⟩, false, none, []⟩)] false

/-- The nodes of the document. -/
def touchySchema : Schema where
  definitions := []
  root := .discriminator ⟨⟨[]⟩, false, none, []⟩ "class" [("x", touchyBranch)]

theorem keys_verbatim_touchy :
    touchyDocument.Distinct ∧ Schema.resolve touchyDocument = .ok touchySchema ∧
      ∃ t, assign Target.TypeScript.rules touchySchema (.string "3") = .ok t ∧
        (∀ key ∈ ["", "a2", "a", "A", "if"],
          t.fieldName ⟨["mapping", "x"]⟩ key = .ok ⟨key, key⟩) ∧
        t.fieldName ⟨["mapping", "x"]⟩ "class" = .ok ⟨"class", "class"⟩ ∧
        t.tagField .root = .ok ⟨"class", "class"⟩ := by
  have hdistinct : touchyDocument.Distinct := by simp [touchyDocument, Json.keys]
  have hresolve : Schema.resolve touchyDocument = .ok touchySchema := by with_unfolding_all rfl
  have hroot := Schema.root_mem_walk touchySchema
  obtain ⟨t, ht, hfields, htag⟩ := keys_verbatim hdistinct hresolve "3"
  obtain ⟨hkeys, hbranch⟩ :=
    hfields _ _ _ _ (Schema.mem_visit_of_child hroot List.mem_cons_self)
  exact ⟨hdistinct, hresolve, t, ht, hkeys,
    hbranch "class" ⟨_, _, "x", hroot, List.mem_cons_self⟩, htag _ _ _ hroot⟩

end Naming

end Typegen
