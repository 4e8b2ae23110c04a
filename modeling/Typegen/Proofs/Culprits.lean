import Typegen.Proofs.Provenance

/-!
# What a refused document is refused for

The values of a document that are held to a rule are listed by `checks` in the order in which they
are visited: a schema comes before the schemas inside it, and a branch is held to the rules for
branches after the schemas inside it.  A document that can not be resolved is refused for the first
value of this list that breaks its rule (`halts_resolve`), and the failure tells where this value
stands.
-/

namespace Typegen.Schema

/-! ## The order of the checks -/

/-- What a value of a document is held to. -/
inductive Rule where
  /-- The rules for one schema, the schemas inside it apart. -/
  | schema (atRoot : Bool)
  /-- The rules for a branch of a discriminator, with what is given as the tag. -/
  | branch (tag : Json)
  /-- The table of definitions is an object. -/
  | table

/-- A value that is held to a rule, where it stands, and the definition on whose account a fault of
it is reported. -/
structure Check where
  path : Pointer
  definition : Option String
  raw : Json
  rule : Rule

/-- The value keeps the rule, given the names of the definitions. -/
def Check.Passes (names : List String) (c : Check) : Prop :=
  match c.rule with
  | .schema atRoot => ∃ members, c.raw = .object members ∧ LocalRules names atRoot members
  | .branch tag => ∀ t, tag = .string t → IsBranch t c.raw
  | .table => IsObject c.raw

/-- A schema inside another one, with the keys that lead to it from there.  A branch has what is
given as the tag. -/
structure Inner where
  keys : List String
  raw : Json
  tag : Option Json := none

/-- The schema under a keyword. -/
def innerItem (members : List (String × Json)) (keyword : String) : List Inner :=
  (Json.get? members keyword).toList.map fun v => { keys := [keyword], raw := v }

/-- The schemas in the object under a keyword. -/
def innerEntries (members : List (String × Json)) (keyword : String) (tag : Option Json) :
    List Inner :=
  (membersAt members keyword).map fun e => ⟨[keyword, e.1], e.2, tag⟩

/-- The schemas that stand under the keywords of a form. -/
def Form.inner (members : List (String × Json)) : Form → List Inner
  | elements => innerItem members "elements"
  | properties =>
    innerEntries members "properties" none ++ innerEntries members "optionalProperties" none
  | values => innerItem members "values"
  | discriminator => innerEntries members "mapping" (some (valueAt members "discriminator"))
  | _ => []

/-- The schemas directly inside a schema. -/
def inner (members : List (String × Json)) : List Inner := Form.all.flatMap (Form.inner members)

variable {c : Check} {raw document : Json} {members : List (String × Json)} {i : Inner}
  {site : Site}

theorem sizeOf_lt_of_mem_innerItem {keyword : String} (h : i ∈ innerItem members keyword) :
    sizeOf i.raw < sizeOf members := by
  obtain ⟨v, hv, rfl⟩ := List.mem_map.1 h
  exact sizeOf_lt_of_get? (Option.mem_toList.1 hv)

theorem sizeOf_lt_of_mem_innerEntries {keyword : String} {tag : Option Json}
    (h : i ∈ innerEntries members keyword tag) : sizeOf i.raw < sizeOf members := by
  obtain ⟨e, he, rfl⟩ := List.mem_map.1 h
  have hmembers := sizeOf_membersAt_le members keyword
  have hentry := List.sizeOf_lt_of_mem he
  have hvalue : sizeOf e.2 < sizeOf e := by
    obtain ⟨key, v⟩ := e
    simp only [Prod.mk.sizeOf_spec]
    omega
  show sizeOf e.2 < sizeOf members
  omega

theorem sizeOf_lt_of_mem_inner (h : i ∈ inner members) : sizeOf i.raw < sizeOf members := by
  obtain ⟨form, -, hi⟩ := List.mem_flatMap.1 h
  cases form with
  | elements | values => exact sizeOf_lt_of_mem_innerItem hi
  | properties =>
    rcases List.mem_append.1 hi with hi | hi
    · exact sizeOf_lt_of_mem_innerEntries hi
    · exact sizeOf_lt_of_mem_innerEntries hi
  | discriminator => exact sizeOf_lt_of_mem_innerEntries hi
  | empty | ref | type | enum => simp [Form.inner] at hi

/-- The checks of a schema at a site and of all schemas inside it. -/
def checksAt (site : Site) (raw : Json) : List Check :=
  ⟨site.path, site.definition, raw, .schema site.isRoot⟩ ::
    match raw with
    | .object members => (inner members).attach.flatMap fun i =>
      checksAt ⟨site.path.push i.1.keys, none, false⟩ i.1.raw ++
        i.1.tag.toList.map fun tag =>
          ⟨site.path.push i.1.keys, site.definition, i.1.raw, .branch tag⟩
    | _ => []
termination_by sizeOf raw
decreasing_by
  have := sizeOf_lt_of_mem_inner i.2
  simp only [Json.object.sizeOf_spec]
  omega

/-- The checks of a schema inside another one, which stands at the given site. -/
def Inner.checks (site : Site) (i : Inner) : List Check :=
  checksAt ⟨site.path.push i.keys, none, false⟩ i.raw ++
    i.tag.toList.map fun tag => ⟨site.path.push i.keys, site.definition, i.raw, .branch tag⟩

theorem checksAt_object (site : Site) (members : List (String × Json)) :
    checksAt site (.object members) =
      ⟨site.path, site.definition, .object members, .schema site.isRoot⟩ ::
        (inner members).flatMap (Inner.checks site) := by
  rw [checksAt]
  congr 1
  conv_rhs => rw [← List.attach_map_subtype_val (inner members), List.flatMap_map]
  rfl

theorem checksAt_of_not_object (site : Site) (h : ∀ members, raw ≠ .object members) :
    checksAt site raw = [⟨site.path, site.definition, raw, .schema site.isRoot⟩] := by
  rw [checksAt]
  exact h

/-- The definitions of a document. -/
def definitionsOf : Json → List (String × Json)
  | .object members => membersAt members "definitions"
  | _ => []

/-- The check of the table of definitions, if there is one. -/
def tableCheck (document : Json) : List Check :=
  (Pointer.eval? ["definitions"] document).toList.map
    fun table => ⟨Pointer.root.push ["definitions"], none, table, .table⟩

/-- The checks of a document: the table of definitions, each definition, and the document itself as
a schema. -/
def checks (document : Json) : List Check :=
  tableCheck document ++
    (definitionsOf document).flatMap
      (fun e => checksAt ⟨Pointer.root.push ["definitions", e.1], some e.1, false⟩ e.2) ++
    checksAt ⟨.root, none, true⟩ document

/-! ## Going through the checks -/

/-- An operation goes through some checks in order.  It succeeds if all of them pass; otherwise it
fails at the first one that does not, and reports a fault where that one stands. -/
inductive Halts {α : Type} (names : List String) (cs : List Check) : Except Failure α → Prop
  | passed (a : α) (h : ∀ c ∈ cs, c.Passes names) : Halts names cs (.ok a)
  | failed {c : Check} {failure : Failure} (hfirst : IsFirst (fun c => ¬ c.Passes names) cs c)
      (hfault : IsFaultAt c.path c.definition failure) : Halts names cs (.error failure)

section

variable {α β : Type} {names : List String} {cs ds : List Check} {x : Except Failure α}

/-- What has been checked before has passed. -/
theorem Halts.preceded (hx : Halts names ds x) (hcs : ∀ c ∈ cs, c.Passes names) :
    Halts names (cs ++ ds) x := by
  cases hx with
  | passed a hds =>
    refine .passed a fun c hc => ?_
    rcases List.mem_append.1 hc with hc | hc
    · exact hcs c hc
    · exact hds c hc
  | failed hfirst hfault =>
    exact .failed (hfirst.append_left fun c hc hnot => hnot (hcs c hc)) hfault

theorem Halts.bind {f : α → Except Failure β} (hx : Halts names cs x)
    (hf : ∀ a, x = .ok a → Halts names ds (f a)) : Halts names (cs ++ ds) (x >>= f) := by
  cases hx with
  | passed a hcs => exact (hf a rfl).preceded hcs
  | failed hfirst hfault => exact .failed (hfirst.append_right ds) hfault

/-- What follows can not fail. -/
theorem Halts.map (hx : Halts names cs x) (f : α → β) :
    Halts names cs (x >>= fun a => pure (f a)) := by
  rw [← List.append_nil cs]
  exact hx.bind fun a _ => .passed (f a) (by simp)

/-- One check. -/
theorem halts_singleton {c : Check} (hok : ∀ a, x = .ok a → c.Passes names)
    (hfails : c.Passes names → ∃ a, x = .ok a)
    (hfault : FailsWith (IsFaultAt c.path c.definition) x) : Halts names [c] x := by
  cases x with
  | ok a => exact .passed a (List.forall_mem_singleton.2 (hok a rfl))
  | error failure =>
    refine .failed ⟨[], [], rfl, fun hpasses => ?_, by simp⟩ (hfault failure rfl)
    obtain ⟨a, ha⟩ := hfails hpasses
    cases ha

end

section

variable {names : List String} {site : Site} {members : List (String × Json)}

theorem halts_readSchema : Halts names
    [⟨site.path, site.definition, .object members, .schema site.isRoot⟩]
    (readSchema names site members) := by
  refine halts_singleton ?_ ?_ failsWith_readSchema
  · rintro ⟨info, head⟩ hread
    exact ⟨members, rfl, localRules_of_readSchema hread⟩
  · rintro ⟨members', heq, hrules⟩
    cases heq
    obtain ⟨info, head, hread⟩ := LocalRules.exists_readSchema hrules
    exact ⟨(info, head), hread⟩

theorem halts_checkBranch {raw : Json} {node : Node} (hnode : resolveNode names site raw = .ok node)
    (definition : Option String) (tag value : String) :
    Halts names [⟨site.path, definition, raw, .branch (.string tag)⟩]
      (checkBranch definition tag value node) := by
  have hbranch : checkBranch definition tag value node = .ok () ↔ IsBranch tag raw := by
    rw [checkBranch_eq_ok, isBranch_iff hnode]
  refine halts_singleton ?_ ?_ ?_
  · rintro ⟨⟩ hcheck t ht
    cases ht
    exact hbranch.1 hcheck
  · intro hpasses
    exact ⟨(), hbranch.2 (hpasses tag rfl)⟩
  · rw [← (place_of_resolveNode hnode).1]
    exact failsWith_checkBranch

/-! ## The schemas inside a schema -/

variable {keyword : String}

theorem innerItem_of_none (h : Json.get? members keyword = none) :
    innerItem members keyword = [] := by
  rw [innerItem, h]
  rfl

theorem innerEntries_of_none (h : Json.get? members keyword = none) (tag : Option Json) :
    innerEntries members keyword tag = [] := by
  simp only [innerEntries, membersAt, h, List.map_nil]

theorem inner_eq_nil {info : Info} {head : Head}
    (hread : readSchema names site members = .ok (info, head)) {form : Form}
    (hform : form ≠ head.form) : form.inner members = [] := by
  have hcommon : ∀ f : Form, ∀ key ∈ f.keywords,
      key ≠ "nullable" ∧ key ≠ "metadata" ∧ key ≠ "definitions" := by
    intro f
    cases f <;> decide
  have hdisjoint : ∀ f g : Form, f ≠ g → ∀ key ∈ f.keywords, key ∉ g.keywords := by
    intro f g
    cases f <;> cases g <;> decide
  have hnone : ∀ key ∈ form.keywords, Json.get? members key = none := by
    intro key hkey
    obtain ⟨hnullable, hmetadata, hdefinitions⟩ := hcommon form key hkey
    exact get?_eq_none hread hnullable hmetadata hdefinitions (hdisjoint form _ hform key hkey)
  cases form with
  | empty | ref | type | enum => rfl
  | elements => exact innerItem_of_none (hnone _ (by decide))
  | properties =>
    rw [Form.inner, innerEntries_of_none (hnone _ (by decide)),
      innerEntries_of_none (hnone _ (by decide)), List.append_nil]
  | values => exact innerItem_of_none (hnone _ (by decide))
  | discriminator => exact innerEntries_of_none (hnone _ (by decide)) _

/-- In a schema that follows the rules, schemas stand only under the keywords of its form. -/
theorem inner_of_readSchema {info : Info} {head : Head}
    (hread : readSchema names site members = .ok (info, head)) :
    inner members = head.form.inner members := by
  have hnil : ∀ form, form ≠ head.form → form.inner members = [] :=
    fun form hform => inner_eq_nil hread hform
  generalize head.form = own at hnil
  have hall : ∀ forms : List Form, forms.Nodup → own ∈ forms →
      forms.flatMap (Form.inner members) = own.inner members := by
    intro forms
    induction forms with
    | nil => simp
    | cons form forms ih =>
      intro hnodup hmem
      obtain ⟨hform, hnodup⟩ := List.nodup_cons.1 hnodup
      rw [List.flatMap_cons]
      rcases List.mem_cons.1 hmem with rfl | hmem
      · have hrest : forms.flatMap (Form.inner members) = [] :=
          List.flatMap_eq_nil_iff.2 fun f hf => hnil f fun heq => hform (heq ▸ hf)
        rw [hrest, List.append_nil]
      · rw [hnil form fun heq => hform (heq ▸ hmem), List.nil_append, ih hnodup hmem]
  exact hall Form.all (by decide) (by cases own <;> decide)

/-- The checks of the schemas in an object. -/
def entryChecks (path : Pointer) (entries : List (String × Json)) : List Check :=
  entries.flatMap fun e => checksAt ⟨path.push [e.1], none, false⟩ e.2

/-- The checks of the branches of a discriminator. -/
def branchChecks (definition : Option String) (tag : Json) (path : Pointer)
    (entries : List (String × Json)) : List Check :=
  entries.flatMap fun e => checksAt ⟨path.push [e.1], none, false⟩ e.2 ++
    [⟨path.push [e.1], definition, e.2, .branch tag⟩]

theorem flatMap_innerEntries (keyword : String) :
    (innerEntries members keyword none).flatMap (Inner.checks site) =
      entryChecks (site.path.push [keyword]) (membersAt members keyword) := by
  simp [innerEntries, List.flatMap_map, entryChecks, Inner.checks]

theorem flatMap_innerEntries_branch (keyword : String) (tag : Json) :
    (innerEntries members keyword (some tag)).flatMap (Inner.checks site) =
      branchChecks site.definition tag (site.path.push [keyword]) (membersAt members keyword) := by
  simp [innerEntries, List.flatMap_map, branchChecks, Inner.checks]

theorem flatMap_innerItem {form : Form} (hsel : Selects members form)
    (hkeyword : ∀ key, Selector form key → key = keyword) :
    (innerItem members keyword).flatMap (Inner.checks site) =
      checksAt ⟨site.path.push [keyword], none, false⟩ (valueAt members keyword) := by
  obtain ⟨key, hkey, hs⟩ := hsel
  obtain rfl := hkeyword key hs
  obtain ⟨v, hv⟩ := Json.mem_keys_iff.1 hkey
  simp [innerItem, valueAt, hv, Inner.checks]

/-! ## Trees of schemas -/

theorem halts_resolveNode : ∀ (site : Site) (raw : Json),
    Halts names (checksAt site raw) (resolveNode names site raw) := by
  refine (resolveNode.mutual_induct
    (fun site raw => Halts names (checksAt site raw) (resolveNode names site raw))
    (fun definition tag path entries =>
      Halts names (branchChecks definition (.string tag) path entries)
        (resolveBranches names definition tag path entries))
    (fun path entries =>
      Halts names (entryChecks path entries) (resolveEntries names path entries))
    ?object ?other ?noBranch ?branch ?noEntry ?entry).1
  case object =>
    intro site members ihElements ihRequired ihOptional ihValues ihMapping
    rw [resolveNode, checksAt_object, ← List.singleton_append]
    refine halts_readSchema.bind ?_
    rintro ⟨info, head⟩ hread
    rw [inner_of_readSchema hread]
    cases head with
    | empty | ref | type | enum => exact .passed _ (by simp [Head.form, Form.inner])
    | elements =>
      have hsel := selects_of_form hread (by simp [Head.form])
      rw [Head.form, Form.inner, flatMap_innerItem hsel fun key hkey => by cases hkey; rfl]
      exact ihElements.map _
    | properties additional =>
      rw [Head.form, Form.inner, List.flatMap_append, flatMap_innerEntries, flatMap_innerEntries]
      exact ihRequired.bind fun required _ => ihOptional.map _
    | values =>
      have hsel := selects_of_form hread (by simp [Head.form])
      rw [Head.form, Form.inner, flatMap_innerItem hsel fun key hkey => by cases hkey; rfl]
      exact ihValues.map _
    | discriminator tag =>
      rw [Head.form, Form.inner, flatMap_innerEntries_branch,
        valueAt_of_get? (tag_of_readSchema hread)]
      exact (ihMapping tag).map _
  case other =>
    intro site raw hraw
    rw [checksAt_of_not_object site fun members h => hraw members h, resolveNode]
    · refine halts_singleton (fun a h => by cases h) ?_ (failsWith_fail _ _ _)
      rintro ⟨members, rfl, -⟩
      exact absurd rfl (hraw members)
    · exact hraw
  case noBranch =>
    intro definition tag path
    rw [resolveBranches]
    exact .passed [] (by simp [branchChecks])
  case branch =>
    intro definition tag path value raw rest ihNode ihRest
    rw [resolveBranches, branchChecks, List.flatMap_cons, List.append_assoc]
    exact ihNode.bind fun node hnode => (halts_checkBranch hnode definition tag value).bind
      fun _ _ => ihRest.map _
  case noEntry =>
    intro path
    rw [resolveEntries]
    exact .passed [] (by simp [entryChecks])
  case entry =>
    intro path key raw rest ihNode ihRest
    rw [resolveEntries, entryChecks, List.flatMap_cons]
    exact ihNode.bind fun node _ => ihRest.map _

theorem halts_resolveDefinitions (entries : List (String × Json)) :
    Halts names (entries.flatMap fun e =>
      checksAt ⟨Pointer.root.push ["definitions", e.1], some e.1, false⟩ e.2)
      (resolveDefinitions names entries) := by
  induction entries with
  | nil => exact .passed [] (by simp)
  | cons e rest ih =>
    rw [resolveDefinitions, List.flatMap_cons]
    exact (halts_resolveNode _ _).bind fun node _ => ih.map _

end

/-! ## Documents -/

theorem tableCheck_object (members : List (String × Json)) :
    tableCheck (.object members) = (Json.get? members "definitions").toList.map
      fun table => ⟨Pointer.root.push ["definitions"], none, table, .table⟩ := by
  have heval : Pointer.eval? ["definitions"] (.object members) =
      Json.get? members "definitions" := by
    cases h : Json.get? members "definitions" with
    | none => rw [Pointer.eval?, h, Option.bind_none]
    | some table => exact Pointer.eval?_key h
  rw [tableCheck, heval]

/-- A document is refused for the first value in it that breaks its rule. -/
theorem halts_resolve (document : Json) :
    Halts (Json.keys (definitionsOf document)) (checks document) (resolve document) := by
  unfold checks
  cases document with
  | object members =>
    rw [tableCheck_object, List.append_assoc, resolve]
    cases htable : readObject members "definitions" with
    | none =>
      have hnot : ¬ IfGiven members "definitions" IsObject := by
        rw [← readObject_isSome, htable]
        simp
      simp only [IfGiven, not_forall] at hnot
      obtain ⟨table, hget, htable⟩ := hnot
      rw [hget]
      exact .failed ⟨[], _, rfl, htable, by simp⟩ ⟨_, _, rfl⟩
    | some raw =>
      have hpasses : ∀ c ∈ (Json.get? members "definitions").toList.map
          fun table => (⟨Pointer.root.push ["definitions"], none, table, .table⟩ : Check),
          c.Passes (Json.keys raw) := by
        intro c hc
        obtain ⟨table, hget, rfl⟩ := List.mem_map.1 hc
        exact readObject_isSome.1 ⟨raw, htable⟩ table (Option.mem_toList.1 hget)
      rw [definitionsOf, membersAt_of_readObject htable]
      refine Halts.preceded ?_ hpasses
      exact (halts_resolveDefinitions raw).bind fun definitions _ => (halts_resolveNode _ _).map _
  | _ =>
    show Halts [] (checksAt ⟨.root, none, true⟩ _) (Site.fail ⟨.root, none, true⟩ .notAnObject)
    rw [checksAt_of_not_object _ (by simp)]
    refine halts_singleton (fun a h => by cases h) ?_ (failsWith_fail _ _ _)
    rintro ⟨members, hraw, -⟩
    cases hraw

/-! ## Where the checks stand -/

section

variable {members : List (String × Json)} {i : Inner}

theorem eval?_of_mem_innerItem (hdistinct : (Json.object members).Distinct) {keyword : String}
    (hi : i ∈ innerItem members keyword) :
    i.raw.Distinct ∧ Pointer.eval? i.keys (.object members) = some i.raw := by
  obtain ⟨v, hv, rfl⟩ := List.mem_map.1 hi
  have hget := Option.mem_toList.1 hv
  exact ⟨hdistinct.of_get? hget, Pointer.eval?_key hget⟩

theorem eval?_of_mem_innerEntries (hdistinct : (Json.object members).Distinct) {keyword : String}
    {tag : Option Json} (hi : i ∈ innerEntries members keyword tag) :
    i.raw.Distinct ∧ Pointer.eval? i.keys (.object members) = some i.raw := by
  obtain ⟨e, he, rfl⟩ := List.mem_map.1 hi
  obtain ⟨entries, hget, he⟩ := mem_membersAt he
  obtain ⟨hkeys, hvalues⟩ := Json.distinct_object_iff.1 (hdistinct.of_get? hget)
  exact ⟨hvalues e he, Pointer.eval?_entry hget hkeys he⟩

theorem eval?_of_mem_inner (hdistinct : (Json.object members).Distinct) (hi : i ∈ inner members) :
    i.raw.Distinct ∧ Pointer.eval? i.keys (.object members) = some i.raw := by
  obtain ⟨form, -, hi⟩ := List.mem_flatMap.1 hi
  cases form with
  | elements | values => exact eval?_of_mem_innerItem hdistinct hi
  | properties =>
    rcases List.mem_append.1 hi with hi | hi
    · exact eval?_of_mem_innerEntries hdistinct hi
    · exact eval?_of_mem_innerEntries hdistinct hi
  | discriminator => exact eval?_of_mem_innerEntries hdistinct hi
  | empty | ref | type | enum => simp [Form.inner] at hi

/-- Only branches have a tag. -/
theorem keys_of_tag (hi : i ∈ inner members) {tag : Json} (htag : i.tag = some tag) :
    ∃ value, i.keys = ["mapping", value] := by
  have hentries : ∀ {keyword : String} {given : Option Json},
      i ∈ innerEntries members keyword given → i.tag = given ∧ ∃ key, i.keys = [keyword, key] := by
    intro keyword given hi
    obtain ⟨e, -, rfl⟩ := List.mem_map.1 hi
    exact ⟨rfl, e.1, rfl⟩
  have hitem : ∀ {keyword : String}, i ∈ innerItem members keyword → i.tag = none := by
    intro keyword hi
    obtain ⟨v, -, rfl⟩ := List.mem_map.1 hi
    rfl
  obtain ⟨form, -, hi⟩ := List.mem_flatMap.1 hi
  cases form with
  | elements | values =>
    rw [hitem hi] at htag
    cases htag
  | properties =>
    rcases List.mem_append.1 hi with hi | hi
    · rw [(hentries hi).1] at htag
      cases htag
    · rw [(hentries hi).1] at htag
      cases htag
  | discriminator => exact (hentries hi).2
  | empty | ref | type | enum => simp [Form.inner] at hi

end

/-- What a check of a schema or of a schema inside it is about. -/
theorem mem_checksAt_cases (hc : c ∈ checksAt site raw) :
    c = ⟨site.path, site.definition, raw, .schema site.isRoot⟩ ∨
      ∃ members i, raw = .object members ∧ i ∈ inner members ∧
        (c ∈ checksAt ⟨site.path.push i.keys, none, false⟩ i.raw ∨
          ∃ tag, i.tag = some tag ∧
            c = ⟨site.path.push i.keys, site.definition, i.raw, .branch tag⟩) := by
  by_cases hobject : ∃ members, raw = .object members
  · obtain ⟨members, rfl⟩ := hobject
    rw [checksAt_object, List.mem_cons] at hc
    refine hc.imp id fun hc => ?_
    obtain ⟨i, hi, hc⟩ := List.mem_flatMap.1 hc
    refine ⟨members, i, rfl, hi, (List.mem_append.1 hc).imp id fun hc => ?_⟩
    obtain ⟨tag, htag, rfl⟩ := List.mem_map.1 hc
    exact ⟨tag, Option.mem_toList.1 htag, rfl⟩
  · rw [checksAt_of_not_object site fun members h => hobject ⟨members, h⟩] at hc
    exact .inl (List.mem_singleton.1 hc)

/-- A check stands where its value is. -/
theorem eval?_of_mem_checksAt (hdistinct : raw.Distinct) (hc : c ∈ checksAt site raw) :
    ∃ keys, c.path = site.path.push keys ∧ Pointer.eval? keys raw = some c.raw := by
  induction hsize : sizeOf raw using Nat.strongRecOn generalizing site raw with
  | ind n ih =>
    rcases mem_checksAt_cases hc with rfl | ⟨members, i, rfl, hi, hc⟩
    · exact ⟨[], by simp [Pointer.push], rfl⟩
    · obtain ⟨hinner, heval⟩ := eval?_of_mem_inner hdistinct hi
      rcases hc with hc | ⟨tag, -, rfl⟩
      · have hsmaller : sizeOf i.raw < n := by
          have hlt := sizeOf_lt_of_mem_inner hi
          simp only [Json.object.sizeOf_spec] at hsize
          omega
        obtain ⟨keys, hpath, hvalue⟩ := ih _ hsmaller hinner hc rfl
        refine ⟨i.keys ++ keys, by rw [hpath, Pointer.push_push], ?_⟩
        rw [Pointer.eval?_append, heval]
        exact hvalue
      · exact ⟨i.keys, rfl, heval⟩

/-- A fault is reported on account of a definition only at the body of that definition and at the
branches of that body. -/
theorem path_of_definition (hc : c ∈ checksAt site raw) {name : String}
    (hname : c.definition = some name) :
    site.definition = some name ∧
      (c.path = site.path ∨ ∃ value, c.path = site.path.push ["mapping", value]) := by
  induction hsize : sizeOf raw using Nat.strongRecOn generalizing site raw with
  | ind n ih =>
    rcases mem_checksAt_cases hc with rfl | ⟨members, i, rfl, hi, hc⟩
    · exact ⟨hname, .inl rfl⟩
    · rcases hc with hc | ⟨tag, htag, rfl⟩
      · have hsmaller : sizeOf i.raw < n := by
          have hlt := sizeOf_lt_of_mem_inner hi
          simp only [Json.object.sizeOf_spec] at hsize
          omega
        cases (ih _ hsmaller hc rfl).1
      · obtain ⟨value, hkeys⟩ := keys_of_tag hi htag
        exact ⟨hname, .inr ⟨value, by rw [hkeys]⟩⟩

theorem mem_checks_cases (hc : c ∈ checks document) :
    (∃ table, Pointer.eval? ["definitions"] document = some table ∧
        c = ⟨Pointer.root.push ["definitions"], none, table, .table⟩) ∨
      (∃ e ∈ definitionsOf document,
        c ∈ checksAt ⟨Pointer.root.push ["definitions", e.1], some e.1, false⟩ e.2) ∨
      c ∈ checksAt ⟨.root, none, true⟩ document := by
  rw [checks, List.mem_append, List.mem_append, or_assoc] at hc
  refine hc.imp (fun hc => ?_) (Or.imp List.mem_flatMap.1 id)
  obtain ⟨table, htable, rfl⟩ := List.mem_map.1 hc
  exact ⟨table, Option.mem_toList.1 htable, rfl⟩

theorem eval?_of_mem_checks (hdistinct : document.Distinct) (hc : c ∈ checks document) :
    Pointer.eval? c.path.segments document = some c.raw := by
  rcases mem_checks_cases hc with ⟨table, htable, rfl⟩ | ⟨e, he, hbelow⟩ | hbelow
  · exact htable
  · cases document with
    | object members =>
      obtain ⟨entries, hget, he⟩ := mem_membersAt he
      obtain ⟨hkeys, hvalues⟩ := Json.distinct_object_iff.1 (hdistinct.of_get? hget)
      obtain ⟨keys, hpath, heval⟩ := eval?_of_mem_checksAt (hvalues e he) hbelow
      rw [hpath, Pointer.push_push, Pointer.segments_push]
      show Pointer.eval? (["definitions", e.1] ++ keys) _ = _
      rw [Pointer.eval?_append, Pointer.eval?_entry hget hkeys he]
      exact heval
    | _ => simp [definitionsOf] at he
  · obtain ⟨keys, hpath, heval⟩ := eval?_of_mem_checksAt hdistinct hbelow
    rw [hpath]
    exact heval

theorem definition_of_mem_checks (hc : c ∈ checks document) {name : String}
    (hname : c.definition = some name) :
    c.path = ⟨["definitions", name]⟩ ∨
      ∃ value, c.path = ⟨["definitions", name, "mapping", value]⟩ := by
  rcases mem_checks_cases hc with ⟨table, -, rfl⟩ | ⟨e, -, hc⟩ | hc
  · cases hname
  · obtain ⟨hdefinition, hpath⟩ := path_of_definition hc hname
    cases hdefinition
    exact hpath
  · cases (path_of_definition hc hname).1

/-- A document that can not be resolved is refused with a fault that is placed at a value of the
document.  This value breaks its rule, and nothing that is checked before does.  If the fault is
reported on account of a definition, the value is the body of the definition or a branch of it. -/
theorem culprit_of_resolve {document : Json} {failure : Failure} (hdistinct : document.Distinct)
    (hresolve : resolve document = .error failure) :
    ∃ culprit fault form,
      failure = .ofSchema fault { path := some culprit.path.text,
                                  definition := culprit.definition,
                                  form := form } ∧
      IsFirst (fun c => ¬ c.Passes (Json.keys (definitionsOf document))) (checks document)
        culprit ∧
      Pointer.eval? (Pointer.read culprit.path.text) document = some culprit.raw ∧
      ∀ name, culprit.definition = some name → culprit.path = ⟨["definitions", name]⟩ ∨
        ∃ value, culprit.path = ⟨["definitions", name, "mapping", value]⟩ := by
  have hhalts := halts_resolve document
  rw [hresolve] at hhalts
  cases hhalts with
  | @failed culprit _ hfirst hfault =>
    obtain ⟨fault, form, rfl⟩ := hfault
    refine ⟨culprit, fault, form, rfl, hfirst, ?_, ?_⟩
    · rw [Pointer.read_text]
      exact eval?_of_mem_checks hdistinct hfirst.mem
    · exact fun name hname => definition_of_mem_checks hfirst.mem hname

/-- A document with three faults, of which the second definition has the first. -/
def faultyDocument : Json := .object [
  ("type", .int 7),
  ("definitions", .object [
    ("fine", .object [("ref", .string "late")]),
    ("a/b", .object [
      ("discriminator", .string "kind"),
      ("mapping", .object [
        ("plain", .object [("properties", .object [])]),
        ("x~", .object [("optionalProperties", .object [("kind", .object [])])])])]),
    ("late", .null)])]

/-- The branch is reported, with the definition whose body the discriminator is. -/
theorem culprit_faulty :
    faultyDocument.Distinct ∧
      resolve faultyDocument = .error (.ofSchema (.branchRedeclaresTag "x~" "kind")
        ⟨some "#/definitions/a~1b/mapping/x~0", some "a/b", some "properties", none⟩) ∧
      ∃ culprit, culprit.path.text = "#/definitions/a~1b/mapping/x~0" ∧
        culprit.definition = some "a/b" ∧
        IsFirst (fun c => ¬ c.Passes ["fine", "a/b", "late"]) (checks faultyDocument) culprit ∧
        Pointer.eval? (Pointer.read culprit.path.text) faultyDocument = some culprit.raw := by
  have hdistinct : faultyDocument.Distinct := by simp [faultyDocument, Json.keys]
  have hresolve : resolve faultyDocument = .error (.ofSchema (.branchRedeclaresTag "x~" "kind")
      ⟨some "#/definitions/a~1b/mapping/x~0", some "a/b", some "properties", none⟩) := by
    with_unfolding_all rfl
  obtain ⟨culprit, fault, form, hfailure, hfirst, heval, -⟩ :=
    culprit_of_resolve hdistinct hresolve
  injection hfailure with hreport
  injection hreport with hcause hcontext
  injection hcontext with hpath hdefinition
  exact ⟨hdistinct, hresolve, culprit, (Option.some.inj hpath).symm, hdefinition.symm, hfirst,
    heval⟩

end Typegen.Schema
