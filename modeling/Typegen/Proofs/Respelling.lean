import Typegen.Proofs.Resolved

/-!
# Spellings of one schema

Two documents may be spellings of the same schema: the keywords of a schema may come in any order,
and some of them may be left out or given with the value that leaving them out stands for.
`Respelled` says that two documents differ in nothing else.  Documents have the same schema exactly
when they are spellings of each other, so a schema keeps all that its document says, in the order in
which entries, values and remarks are given.
-/

namespace Typegen.Schema

/-! ## Spellings -/

/-- What leaving out a keyword stands for, where it may be left out.  The two tables of properties
may be left out if the other one is given. -/
def leftOut (members : List (String × Json)) (key : String) : Option Json :=
  if key = "nullable" ∨ key = "additionalProperties" then some (.bool false)
  else if key = "metadata" ∨ key = "definitions" then some (.object [])
  else if (key = "properties" ∨ key = "optionalProperties") ∧
      (Json.hasKey members "properties" ∨ Json.hasKey members "optionalProperties") then
    some (.object [])
  else none

/-- What a schema says under a keyword, given or left out. -/
def said (members : List (String × Json)) (key : String) : Option Json :=
  (Json.get? members key).or (leftOut members key)

/-- The keywords under which a schema stands. -/
def itemKeywords : List String := ["elements", "values"]

/-- The keywords under which a table of schemas stands. -/
def tableKeywords : List String := ["definitions", "properties", "optionalProperties", "mapping"]

/-- The keys of a table, in order. -/
def tableKeys : Json → Option (List String)
  | .object entries => some (Json.keys entries)
  | _ => none

/-- Two values are spellings of the same schema: they are objects that say the same under every
keyword.  Under the keywords of schemas they have spellings of the same schema, and under those of
tables they have tables with the same keys in the same order, and with spellings of the same schemas
under these. -/
inductive Respelled : Json → Json → Prop
  | object {members members' : List (String × Json)}
      (plain : ∀ key, key ∉ itemKeywords → key ∉ tableKeywords →
        said members key = said members' key)
      (given : ∀ key ∈ itemKeywords, (said members key).isSome = (said members' key).isSome)
      (items : ∀ key ∈ itemKeywords, ∀ v v', said members key = some v →
        said members' key = some v' → Respelled v v')
      (tables : ∀ key ∈ tableKeywords,
        (said members key).map tableKeys = (said members' key).map tableKeys)
      (entries : ∀ key ∈ tableKeywords, ∀ es es', said members key = some (.object es) →
        said members' key = some (.object es') → ∀ p ∈ es.zip es', Respelled p.1.2 p.2.2) :
      Respelled (.object members) (.object members')

/-- Two values are tables with the same keys in the same order, and with spellings of the same
schemas under these. -/
def RespelledTables (v v' : Json) : Prop :=
  ∃ es es', v = .object es ∧ v' = .object es' ∧ Json.keys es = Json.keys es' ∧
    ∀ p ∈ es.zip es', Respelled p.1.2 p.2.2

theorem Respelled.of_said {members members' : List (String × Json)}
    (plain : ∀ key, key ∉ itemKeywords → key ∉ tableKeywords → said members key = said members' key)
    (items : ∀ key ∈ itemKeywords, Option.Rel Respelled (said members key) (said members' key))
    (tables : ∀ key ∈ tableKeywords,
      Option.Rel RespelledTables (said members key) (said members' key)) :
    Respelled (.object members) (.object members') := by
  refine .object plain (fun key hkey => ?_) (fun key hkey v v' hv hv' => ?_) (fun key hkey => ?_)
    fun key hkey es es' hes hes' => ?_
  · have hrel := items key hkey
    revert hrel
    generalize said members key = a, said members' key = b
    rintro (_ | h) <;> rfl
  · have hrel := items key hkey
    rw [hv, hv'] at hrel
    cases hrel with
    | some h => exact h
  · have hrel := tables key hkey
    revert hrel
    generalize said members key = a, said members' key = b
    rintro (⟨es, es', rfl, rfl, hkeys, -⟩ | _)
    · exact congrArg (fun keys => some (some keys)) hkeys
    · rfl
  · have hrel := tables key hkey
    rw [hes, hes'] at hrel
    obtain ⟨_, _, heq, heq', -, hentries⟩ | - := hrel
    cases heq
    cases heq'
    exact hentries

/-! ## What a node keeps -/

/-- Whether a node tolerates other keys; only structs can. -/
def Node.additional : Node → Bool
  | .properties _ _ _ additional => additional
  | _ => false

/-- The value that a node keeps from under a keyword that belongs to its form. -/
def Node.ownValueAt : Node → String → Option Json
  | .ref _ target, key => if key = "ref" then some (.string target) else none
  | .type _ p, key => if key = "type" then some (.string p.label) else none
  | .enum _ vs, key => if key = "enum" then some (.array (vs.map .string)) else none
  | .discriminator _ tag _, key => if key = "discriminator" then some (.string tag) else none
  | _, _ => none

/-- The value that a node keeps from under a keyword. -/
def Node.valueAt (n : Node) (key : String) : Option Json :=
  if key = "nullable" then some (.bool n.info.nullable)
  else if key = "metadata" then some (.object n.info.metadata)
  else if key = "additionalProperties" then some (.bool n.additional)
  else n.ownValueAt key

/-- The node that a node has for the schema under a keyword. -/
def Node.itemAt : Node → String → Option Node
  | .elements _ item, key => if key = "elements" then some item else none
  | .values _ item, key => if key = "values" then some item else none
  | _, _ => none

/-- The nodes that a node has for the table of schemas under a keyword. -/
def Node.tableAt : Node → String → Option (List (String × Node))
  | .properties _ required optional _, key =>
    if key = "properties" then some required
    else if key = "optionalProperties" then some optional
    else none
  | .discriminator _ _ mapping, key => if key = "mapping" then some mapping else none
  | _, _ => none

variable {n : Node}

theorem Node.mem_children_of_itemAt {item : Node} {key : String} (h : n.itemAt key = some item) :
    item ∈ n.children := by
  cases n with
  | elements | values =>
    simp only [itemAt, Option.ite_none_right_eq_some, Option.some.injEq] at h
    simp [children, h.2]
  | _ => cases h

theorem Node.mem_children_of_tableAt {key : String} {nodes : List (String × Node)}
    (h : n.tableAt key = some nodes) {m : String × Node} (hm : m ∈ nodes) : m.2 ∈ n.children := by
  cases n with
  | properties =>
    simp only [tableAt] at h
    split_ifs at h
    · cases h
      exact List.mem_append_left _ (List.mem_map_of_mem hm)
    · cases h
      exact List.mem_append_right _ (List.mem_map_of_mem hm)
  | discriminator =>
    simp only [tableAt, Option.ite_none_right_eq_some, Option.some.injEq] at h
    obtain ⟨-, rfl⟩ := h
    exact List.mem_map_of_mem hm
  | _ => cases h

/-- A node is determined by its place and by what it keeps from under the keywords. -/
theorem Node.eq_of_keeps {n' : Node} (hpath : n.info.path = n'.info.path)
    (hdefinition : n.info.definition = n'.info.definition)
    (hvalue : ∀ key, key ∉ itemKeywords → key ∉ tableKeywords → n.valueAt key = n'.valueAt key)
    (hitem : ∀ key ∈ itemKeywords, n.itemAt key = n'.itemAt key)
    (htable : ∀ key ∈ tableKeywords, key ≠ "definitions" → n.tableAt key = n'.tableAt key) :
    n = n' := by
  have hinfo : n.info = n'.info := by
    have hnullable : some (Json.bool n.info.nullable) = some (.bool n'.info.nullable) :=
      hvalue "nullable" (by decide) (by decide)
    have hmetadata : some (Json.object n.info.metadata) = some (.object n'.info.metadata) :=
      hvalue "metadata" (by decide) (by decide)
    cases hi : n.info
    cases hi' : n'.info
    simp_all
  have hadditional : some (Json.bool n.additional) = some (.bool n'.additional) :=
    hvalue "additionalProperties" (by decide) (by decide)
  have href : n.ownValueAt "ref" = n'.ownValueAt "ref" := hvalue "ref" (by decide) (by decide)
  have htype : n.ownValueAt "type" = n'.ownValueAt "type" := hvalue "type" (by decide) (by decide)
  have henum : n.ownValueAt "enum" = n'.ownValueAt "enum" := hvalue "enum" (by decide) (by decide)
  have htag : n.ownValueAt "discriminator" = n'.ownValueAt "discriminator" :=
    hvalue "discriminator" (by decide) (by decide)
  have helements := hitem "elements" (by decide)
  have hvalues := hitem "values" (by decide)
  have hrequired := htable "properties" (by decide) (by decide)
  have hoptional := htable "optionalProperties" (by decide) (by decide)
  have hmapping := htable "mapping" (by decide) (by decide)
  clear hvalue hitem htable hpath hdefinition
  -- Nodes of different forms keep something from under different keywords.
  cases n <;> cases n' <;>
    simp [ownValueAt, itemAt, tableAt, info, additional]
      at hinfo hadditional href htype henum htag helements hvalues hrequired hoptional hmapping
  case empty.empty => rw [hinfo]
  case ref.ref => rw [hinfo, href]
  case type.type p _ p' =>
    have hlabel := ofLabel?_eq_some_iff.2 htype
    rw [ofLabel?_eq_some_iff.2 rfl, Option.some.injEq] at hlabel
    rw [hinfo, hlabel]
  case enum.enum =>
    rw [hinfo, List.map_injective_iff.2 (fun _ _ h => Json.string.inj h) henum]
  case elements.elements => rw [hinfo, helements]
  case properties.properties => rw [hinfo, hadditional, hrequired, hoptional]
  case values.values => rw [hinfo, hvalues]
  case discriminator.discriminator => rw [hinfo, htag, hmapping]

section

variable {names : List String} {site : Site} {members : List (String × Json)} {key : String}
  {info : Info} {node : Node}

theorem said_of_get? {v : Json} (h : Json.get? members key = some v) :
    said members key = some v := by
  rw [said, h, Option.some_or]

theorem said_of_readFlag {b : Bool} (h : readFlag members key = some b)
    (hleft : leftOut members key = some (.bool false)) : said members key = some (.bool b) := by
  unfold readFlag at h
  rw [said, hleft]
  split at h
  · next hnone => cases h; rw [hnone]; rfl
  · next hsome => cases h; rw [hsome]; rfl
  · cases h

theorem said_of_readObject {ms : List (String × Json)} (h : readObject members key = some ms)
    (hleft : leftOut members key = some (.object [])) : said members key = some (.object ms) := by
  rcases readObject_eq_some.1 h with hsome | ⟨hnone, rfl⟩
  · exact said_of_get? hsome
  · rw [said, hnone, hleft]
    rfl

theorem get?_of_selects {form : Form} (hsel : Selects members form)
    (honly : ∀ k, Selector form k → k = key) :
    Json.get? members key = some (valueAt members key) := by
  obtain ⟨k, hk, hs⟩ := hsel
  obtain rfl := honly k hs
  obtain ⟨v, hv⟩ := Json.mem_keys_iff.1 hk
  rw [valueAt_of_get? hv]
  exact hv

/-- Nothing is said under a keyword that belongs neither to all schemas nor to the form. -/
theorem said_eq_none {head : Head} (hread : readSchema names site members = .ok (info, head))
    (hnullable : key ≠ "nullable") (hmetadata : key ≠ "metadata")
    (hdefinitions : key ≠ "definitions") (hadditional : key ≠ "additionalProperties")
    (hown : key ∉ head.form.keywords) : said members key = none := by
  rw [said, get?_eq_none hread hnullable hmetadata hdefinitions hown, Option.none_or, leftOut,
    if_neg (by simp [hnullable, hadditional]), if_neg (by simp [hmetadata, hdefinitions])]
  refine if_neg ?_
  rintro ⟨hkey, hgiven⟩
  -- A table of properties would select the form that the keyword belongs to.
  have hsel : Selects members .properties := by
    rcases hgiven with h | h
    · exact ⟨_, Json.hasKey_iff.1 h, .properties⟩
    · exact ⟨_, Json.hasKey_iff.1 h, .optionalProperties⟩
  rw [form_of_selects hread hsel] at hown
  rcases hkey with rfl | rfl <;> simp [Form.keywords] at hown

/-- A table of properties is said in full by a schema that has one of them. -/
theorem said_properties {additional : Bool}
    (hread : readSchema names site members = .ok (info, .properties additional))
    (hkey : key = "properties" ∨ key = "optionalProperties") :
    said members key = some (.object (membersAt members key)) := by
  obtain ⟨form, -, -, -, hhead⟩ := readSchema_eq_ok.1 hread
  obtain rfl := form_of_readHead hhead
  obtain ⟨required, optional, -, hrequired, hoptional, -⟩ := readHead_properties.1 hhead
  have hleft : leftOut members key = some (.object []) := by
    obtain ⟨k, hk, hs⟩ := selects_of_form hread (by simp [Head.form])
    have hgiven : Json.hasKey members "properties" = true ∨
        Json.hasKey members "optionalProperties" = true := by
      cases hs with
      | properties => exact .inl (Json.hasKey_iff.2 hk)
      | optionalProperties => exact .inr (Json.hasKey_iff.2 hk)
    rcases hkey with rfl | rfl <;> simp [leftOut, hgiven]
  rcases hkey with rfl | rfl
  · rw [membersAt_of_readObject hrequired]
    exact said_of_readObject hrequired hleft
  · rw [membersAt_of_readObject hoptional]
    exact said_of_readObject hoptional hleft

theorem said_additional {head : Head} (hread : readSchema names site members = .ok (info, head))
    (hnode : Assembles names site members info head node) :
    said members "additionalProperties" = some (.bool node.additional) := by
  have hleft : leftOut members "additionalProperties" = some (.bool false) := by simp [leftOut]
  have hnone : "additionalProperties" ∉ head.form.keywords →
      said members "additionalProperties" = some (.bool false) := by
    intro hown
    rw [said, get?_eq_none hread (by decide) (by decide) (by decide) hown, hleft]
    rfl
  cases hnode with
  | properties additional =>
    obtain ⟨form, -, -, -, hhead⟩ := readSchema_eq_ok.1 hread
    obtain rfl := form_of_readHead hhead
    obtain ⟨-, -, additional', -, -, -, hflag, heq⟩ := readHead_properties.1 hhead
    cases heq
    exact said_of_readFlag hflag hleft
  | empty | ref | type | enum | elements | values | discriminator =>
    exact hnone (by simp [Head.form, Form.keywords, Form.selectors, Form.label])

/-- The nodes of the entries of a table, each with the key of its entry. -/
def EntriesOf (names : List String) (site : String → Site) (es : List (String × Json))
    (nodes : List (String × Node)) : Prop :=
  List.Forall₂ (fun e m => m.1 = e.1 ∧ resolveNode names (site e.1) e.2 = .ok m.2) es nodes

/-- The place of a schema under a key, below the given path. -/
def Site.below (path : Pointer) (key : String) : Site := ⟨path.push [key], none, false⟩

/-- The place of a definition. -/
def Site.ofDefinition (name : String) : Site :=
  ⟨Pointer.root.push ["definitions", name], some name, false⟩

/-- A node keeps what its schema says, the table of definitions apart. -/
structure Keeps (names : List String) (path : Pointer) (members : List (String × Json))
    (node : Node) : Prop where
  value : ∀ key, key ∉ itemKeywords → key ∉ tableKeywords → said members key = node.valueAt key
  item : ∀ key ∈ itemKeywords, Option.Rel
    (fun v n => resolveNode names (.below path key) v = .ok n) (said members key) (node.itemAt key)
  table : ∀ key ∈ tableKeywords, key ≠ "definitions" → Option.Rel
    (fun v nodes => ∃ es, v = .object es ∧ EntriesOf names (.below (path.push [key])) es nodes)
    (said members key) (node.tableAt key)

/-- What an assembled node keeps from under the keywords of no other form than its own. -/
theorem Assembles.keeps_nothing {head : Head} (hnode : Assembles names site members info head node)
    (hown : key ∉ head.form.keywords) :
    node.ownValueAt key = none ∧ node.itemAt key = none ∧ node.tableAt key = none := by
  cases hnode <;>
    simp_all [Head.form, Form.keywords, Form.selectors, Form.label, Node.ownValueAt, Node.itemAt,
      Node.tableAt]

theorem said_eq_ownValueAt {head : Head} (hread : readSchema names site members = .ok (info, head))
    (hnode : Assembles names site members info head node) (hown : key ∈ head.form.keywords)
    (hadditional : key ≠ "additionalProperties") (hitem : key ∉ itemKeywords)
    (htable : key ∉ tableKeywords) : said members key = node.ownValueAt key := by
  simp only [itemKeywords, tableKeywords, List.mem_cons, List.not_mem_nil, or_false, not_or]
    at hitem htable
  obtain ⟨form, -, -, -, hhead⟩ := readSchema_eq_ok.1 hread
  obtain rfl := form_of_readHead hhead
  cases hnode <;> simp [Head.form, Form.keywords, Form.selectors, Form.label] at hown
  case ref target =>
    obtain ⟨_, hget, -, heq⟩ := readHead_ref.1 hhead
    cases heq
    exact hown ▸ said_of_get? hget
  case type p =>
    obtain ⟨_, hget, heq⟩ := readHead_type.1 hhead
    cases heq
    exact hown ▸ said_of_get? hget
  case enum values =>
    obtain ⟨_, hget, -, -, heq⟩ := readHead_enum.1 hhead
    cases heq
    exact hown ▸ said_of_get? hget
  case discriminator tag _ =>
    obtain ⟨_, _, hget, -, -, heq⟩ := readHead_discriminator.1 hhead
    cases heq
    simp only [htable, or_false] at hown
    exact hown ▸ said_of_get? hget
  all_goals simp_all

theorem item_of_assembles {head : Head} (hread : readSchema names site members = .ok (info, head))
    (hnode : Assembles names site members info head node) (hown : key ∈ head.form.keywords)
    (hkey : key ∈ itemKeywords) :
    Option.Rel (fun v n => resolveNode names (.below site.path key) v = .ok n)
      (said members key) (node.itemAt key) := by
  simp only [itemKeywords, List.mem_cons, List.not_mem_nil, or_false] at hkey
  have hget : head.form ≠ .empty → (∀ k, Selector head.form k → k = key) →
      said members key = some (valueAt members key) :=
    fun hne honly => said_of_get? (get?_of_selects (selects_of_form hread hne) honly)
  cases hnode
  case elements item hitem =>
    obtain rfl : key = "elements" := by
      simpa [Head.form, Form.keywords, Form.selectors, Form.label] using hown
    rw [hget (by simp [Head.form]) fun k hk => by cases hk; rfl]
    exact .some hitem
  case values item hitem =>
    obtain rfl : key = "values" := by
      simpa [Head.form, Form.keywords, Form.selectors, Form.label] using hown
    rw [hget (by simp [Head.form]) fun k hk => by cases hk; rfl]
    exact .some hitem
  all_goals
    rcases hkey with rfl | rfl <;>
      simp [Head.form, Form.keywords, Form.selectors, Form.label] at hown

theorem table_of_assembles {head : Head} (hread : readSchema names site members = .ok (info, head))
    (hnode : Assembles names site members info head node) (hown : key ∈ head.form.keywords)
    (hkey : key ∈ tableKeywords) :
    Option.Rel (fun v nodes => ∃ es, v = .object es ∧
        EntriesOf names (.below (site.path.push [key])) es nodes)
      (said members key) (node.tableAt key) := by
  simp only [tableKeywords, List.mem_cons, List.not_mem_nil, or_false] at hkey
  cases hnode
  case properties hrequired hoptional =>
    rcases hkey with rfl | rfl | rfl | rfl
    · simp [Head.form, Form.keywords] at hown
    · rw [said_properties hread (.inl rfl)]
      exact .some ⟨_, rfl, resolveEntries_eq_ok.1 hrequired⟩
    · rw [said_properties hread (.inr rfl)]
      exact .some ⟨_, rfl, resolveEntries_eq_ok.1 hoptional⟩
    · simp [Head.form, Form.keywords] at hown
  case discriminator tag hmapping =>
    obtain ⟨form, -, -, -, hhead⟩ := readSchema_eq_ok.1 hread
    obtain rfl := form_of_readHead hhead
    obtain ⟨-, branches, -, hbranches, -, -⟩ := readHead_discriminator.1 hhead
    obtain rfl : key = "mapping" := by
      rcases hkey with rfl | rfl | rfl | rfl
      · simp [Head.form, Form.keywords] at hown
      · simp [Head.form, Form.keywords] at hown
      · simp [Head.form, Form.keywords] at hown
      · rfl
    rw [said_of_get? hbranches]
    rw [membersAt_of_get? hbranches] at hmapping
    exact .some ⟨_, rfl, (resolveBranches_eq_ok.1 hmapping).imp fun e m h => ⟨h.1, h.2.1⟩⟩
  all_goals
    rcases hkey with rfl | rfl | rfl | rfl <;>
      simp [Head.form, Form.keywords, Form.selectors, Form.label] at hown

/-- What a schema says can be told from its node, apart from the schemas inside it. -/
theorem keeps_of_resolveNode (h : resolveNode names site (.object members) = .ok node) :
    Keeps names site.path members node := by
  obtain ⟨info, head, hread, hnode⟩ := resolveNode_object_eq_ok.1 h
  have hinfo : node.info = info := by cases hnode <;> rfl
  obtain ⟨form, -, -, hreadInfo, -⟩ := readSchema_eq_ok.1 hread
  obtain ⟨nullable, metadata, hnullable, hmetadata, rfl⟩ := readInfo_eq_ok.1 hreadInfo
  refine ⟨fun key hitem htable => ?_, fun key hkey => ?_, fun key hkey hne => ?_⟩
  · have hdefinitions : key ≠ "definitions" := by
      rintro rfl
      exact htable (by decide)
    unfold Node.valueAt
    rw [hinfo]
    split_ifs with h₁ h₂ h₃
    · rw [h₁]
      exact said_of_readFlag hnullable (by simp [leftOut])
    · rw [h₂]
      exact said_of_readObject hmetadata (by simp [leftOut])
    · rw [h₃]
      exact said_additional hread hnode
    · by_cases hown : key ∈ head.form.keywords
      · exact said_eq_ownValueAt hread hnode hown h₃ hitem htable
      · rw [said_eq_none hread h₁ h₂ hdefinitions h₃ hown, (hnode.keeps_nothing hown).1]
  · by_cases hown : key ∈ head.form.keywords
    · exact item_of_assembles hread hnode hown hkey
    · have hne : ∀ k ∉ itemKeywords, key ≠ k := fun k hk heq => hk (heq ▸ hkey)
      rw [said_eq_none hread (hne _ (by decide)) (hne _ (by decide)) (hne _ (by decide))
        (hne _ (by decide)) hown, (hnode.keeps_nothing hown).2.1]
      exact .none
  · by_cases hown : key ∈ head.form.keywords
    · exact table_of_assembles hread hnode hown hkey
    · have hne' : ∀ k ∉ tableKeywords, key ≠ k := fun k hk heq => hk (heq ▸ hkey)
      rw [said_eq_none hread (hne' _ (by decide)) (hne' _ (by decide)) hne (hne' _ (by decide))
        hown, (hnode.keeps_nothing hown).2.2]
      exact .none

/-- Schemas inside a document have no definitions. -/
theorem said_definitions (h : site.isRoot = false)
    (hnode : resolveNode names site (.object members) = .ok node) :
    said members "definitions" = some (.object []) := by
  obtain ⟨info, head, hread, -⟩ := resolveNode_object_eq_ok.1 hnode
  obtain ⟨form, -, hkeys, -, -⟩ := readSchema_eq_ok.1 hread
  have hnone : Json.get? members "definitions" = none := by
    by_contra hsome
    obtain ⟨v, hv⟩ := Option.ne_none_iff_exists'.1 hsome
    rcases checkKeywords_eq_ok.1 hkeys _ (Json.mem_keys_iff.2 ⟨v, hv⟩) with h' | h' | ⟨-, h'⟩ | h'
    · exact absurd h' (by decide)
    · exact absurd h' (by decide)
    · rw [h] at h'
      cases h'
    · rw [ownKeyword_iff] at h'
      cases form <;> simp [Form.keywords, Form.selectors, Form.label] at h'
  simp [said, hnone, leftOut]

end

/-! ## Documents of one schema -/

section

variable {names names' : List String} {members members' : List (String × Json)} {node : Node}

/-- Nested schemas with the given node are spellings of each other. -/
def SameSpellings (names names' : List String) (n : Node) : Prop :=
  ∀ (site site' : Site) (raw raw' : Json), site.isRoot = false → site'.isRoot = false →
    resolveNode names site raw = .ok n → resolveNode names' site' raw' = .ok n → Respelled raw raw'

/-- Tables of schemas with the same nodes have the same keys and spellings of the same schemas. -/
theorem EntriesOf.respelled {site site' : String → Site} {es es' : List (String × Json)}
    {nodes : List (String × Node)} (h : EntriesOf names site es nodes)
    (h' : EntriesOf names' site' es' nodes) (hsite : ∀ key, (site key).isRoot = false)
    (hsite' : ∀ key, (site' key).isRoot = false)
    (hsame : ∀ m ∈ nodes, SameSpellings names names' m.2) :
    Json.keys es = Json.keys es' ∧ ∀ p ∈ es.zip es', Respelled p.1.2 p.2.2 := by
  refine ⟨(map_fst_of_forall₂ h).symm.trans (map_fst_of_forall₂ h'), fun p hp => ?_⟩
  obtain ⟨m, hm, ⟨-, hread⟩, -, hread'⟩ := (List.forall₂_iff_zip.1 (forall₂_join h h')).2 hp
  exact hsame m hm _ _ _ _ (hsite _) (hsite' _) hread hread'

/-- Schemas with the same node are spellings of each other, if the schemas below them and their
definitions are. -/
theorem Keeps.respelled {path path' : Pointer} {es es' : List (String × Json)}
    (h : Keeps names path members node) (h' : Keeps names' path' members' node)
    (hchildren : ∀ c ∈ node.children, SameSpellings names names' c)
    (hes : said members "definitions" = some (.object es))
    (hes' : said members' "definitions" = some (.object es'))
    (hdefinitions : Json.keys es = Json.keys es' ∧ ∀ p ∈ es.zip es', Respelled p.1.2 p.2.2) :
    Respelled (.object members) (.object members') := by
  refine .of_said (fun key hitem htable => ?_) (fun key hkey => ?_) fun key hkey => ?_
  · exact (h.value key hitem htable).trans (h'.value key hitem htable).symm
  · refine optionRel_join (h.item key hkey) (h'.item key hkey) fun v v' item hitem hv hv' => ?_
    exact hchildren item (Node.mem_children_of_itemAt hitem) _ _ _ _ rfl rfl hv hv'
  · by_cases hne : key = "definitions"
    · rw [hne, hes, hes']
      exact .some ⟨es, es', rfl, rfl, hdefinitions⟩
    · refine optionRel_join (h.table key hkey hne) (h'.table key hkey hne) ?_
      rintro v v' nodes hnodes ⟨fs, rfl, hfs⟩ ⟨fs', rfl, hfs'⟩
      refine ⟨fs, fs', rfl, rfl, hfs.respelled hfs' (fun _ => rfl) (fun _ => rfl) fun m hm => ?_⟩
      exact hchildren m.2 (Node.mem_children_of_tableAt hnodes hm)

/-- Nested schemas with the same node are spellings of each other. -/
theorem sameSpellings (names names' : List String) (node : Node) :
    SameSpellings names names' node := by
  induction hlength : node.preorder.length using Nat.strongRecOn generalizing node with
  | ind k ih =>
    intro site site' raw raw' hsite hsite' h h'
    obtain ⟨members, rfl⟩ := resolveNode_eq_ok_object h
    obtain ⟨members', rfl⟩ := resolveNode_eq_ok_object h'
    refine (keeps_of_resolveNode h).respelled (keeps_of_resolveNode h') (fun c hc => ?_)
      (said_definitions hsite h) (said_definitions hsite' h') ⟨rfl, by simp⟩
    exact ih c.preorder.length (hlength ▸ Node.length_preorder_lt hc) c rfl

/-- What a document says under the keyword of its definitions, and their nodes. -/
theorem definitions_of_resolve {s : Schema} (h : resolve (.object members) = .ok s) :
    ∃ raw, said members "definitions" = some (.object raw) ∧
      EntriesOf (Json.keys raw) Site.ofDefinition raw s.definitions ∧
      resolveNode (Json.keys raw) ⟨.root, none, true⟩ (.object members) = .ok s.root := by
  obtain ⟨raw, hraw, hdefinitions, hroot⟩ := resolve_object_eq_ok.1 h
  exact ⟨raw, said_of_readObject hraw (by simp [leftOut]), resolveDefinitions_eq_ok.1 hdefinitions,
    hroot⟩

/-- Documents with the same schema are spellings of each other. -/
theorem respelled_of_resolve {d d' : Json} {s : Schema} (h : resolve d = .ok s)
    (h' : resolve d' = .ok s) : Respelled d d' := by
  obtain ⟨members, rfl⟩ := resolve_eq_ok_object h
  obtain ⟨members', rfl⟩ := resolve_eq_ok_object h'
  obtain ⟨raw, hraw, hentries, hroot⟩ := definitions_of_resolve h
  obtain ⟨raw', hraw', hentries', hroot'⟩ := definitions_of_resolve h'
  refine (keeps_of_resolveNode hroot).respelled (keeps_of_resolveNode hroot')
    (fun c _ => sameSpellings _ _ c) hraw hraw' ?_
  exact hentries.respelled hentries' (fun _ => rfl) (fun _ => rfl) fun m _ => sameSpellings _ _ m.2

end

/-! ## Schemas of one spelling -/

section

variable {names : List String}

/-- Two values have the same node wherever both have one. -/
def SameNodes (raw raw' : Json) : Prop :=
  ∀ (names : List String) (site : Site) (n n' : Node), resolveNode names site raw = .ok n →
    resolveNode names site raw' = .ok n' → n = n'

theorem EntriesOf.eq {site : String → Site} {es es' : List (String × Json)}
    {nodes nodes' : List (String × Node)} (h : EntriesOf names site es nodes)
    (h' : EntriesOf names site es' nodes') (hkeys : Json.keys es = Json.keys es')
    (hsame : ∀ p ∈ es.zip es', SameNodes p.1.2 p.2.2) : nodes = nodes' := by
  unfold EntriesOf at h h'
  induction h generalizing es' nodes' with
  | nil =>
    obtain rfl : es' = [] := by simpa [Json.keys] using hkeys.symm
    cases h'
    rfl
  | @cons e m es nodes hm _ ih =>
    cases h' with
    | nil => simp [Json.keys] at hkeys
    | @cons e' m' es' nodes' hm' hrest =>
      obtain ⟨hkey, hkeys⟩ : e.1 = e'.1 ∧ Json.keys es = Json.keys es' := by
        simpa [Json.keys] using hkeys
      have hnode : m.2 = m'.2 :=
        hsame (e, e') List.mem_cons_self names (site e.1) m.2 m'.2 hm.2 (hkey ▸ hm'.2)
      have hentry : m = m' := Prod.ext (hm.1.trans (hkey.trans hm'.1.symm)) hnode
      rw [hentry, ih hrest hkeys fun p hp => hsame p (List.mem_cons_of_mem _ hp)]

/-- Spellings of a schema have the same node. -/
theorem Respelled.sameNodes {raw raw' : Json} (h : Respelled raw raw') : SameNodes raw raw' := by
  induction h with
  | @object members members' plain given items tables entries ihItems ihEntries =>
    intro names site n n' hn hn'
    have hkeeps := keeps_of_resolveNode hn
    have hkeeps' := keeps_of_resolveNode hn'
    obtain ⟨hpath, hdefinition⟩ := place_of_resolveNode hn
    obtain ⟨hpath', hdefinition'⟩ := place_of_resolveNode hn'
    refine Node.eq_of_keeps (hpath.trans hpath'.symm) (hdefinition.trans hdefinition'.symm)
      (fun key hitem htable => ?_) (fun key hkey => ?_) fun key hkey hne => ?_
    · rw [← hkeeps.value key hitem htable, ← hkeeps'.value key hitem htable]
      exact plain key hitem htable
    · refine eq_of_optionRel (hkeeps.item key hkey) (hkeeps'.item key hkey) (given key hkey) ?_
      intro v v' item item' hv hv' hitem hitem'
      exact ihItems key hkey v v' hv hv' names _ item item' hitem hitem'
    · have hkeys := tables key hkey
      refine eq_of_optionRel (hkeeps.table key hkey hne) (hkeeps'.table key hkey hne) ?_ ?_
      · rw [← Option.isSome_map, hkeys, Option.isSome_map]
      · rintro v v' nodes nodes' hv hv' ⟨es, rfl, hes⟩ ⟨es', rfl, hes'⟩
        rw [hv, hv', Option.map_some, Option.map_some, Option.some.injEq] at hkeys
        exact hes.eq hes' (Option.some.inj hkeys) fun p hp => ihEntries key hkey es es' hv hv' p hp

/-- Documents that are spellings of each other have the same schema. -/
theorem eq_of_respelled {d d' : Json} {s s' : Schema} (h : resolve d = .ok s)
    (h' : resolve d' = .ok s') (hspelled : Respelled d d') : s = s' := by
  have hsame := hspelled.sameNodes
  cases hspelled with
  | @object members members' _ _ _ tables entries =>
    obtain ⟨raw, hraw, hentries, hroot⟩ := definitions_of_resolve h
    obtain ⟨raw', hraw', hentries', hroot'⟩ := definitions_of_resolve h'
    have hkeys := tables "definitions" (by decide)
    rw [hraw, hraw', Option.map_some, Option.map_some, Option.some.injEq] at hkeys
    have hkeys : Json.keys raw = Json.keys raw' := Option.some.inj hkeys
    rw [hkeys] at hentries hroot
    have hdefinitions : s.definitions = s'.definitions := hentries.eq hentries' hkeys fun p hp =>
      (entries "definitions" (by decide) raw raw' hraw hraw' p hp).sameNodes
    have hroots : s.root = s'.root := hsame _ _ _ _ hroot hroot'
    cases s
    cases s'
    simp_all

end

/-- Two documents have the same schema exactly if they are spellings of each other. -/
theorem resolve_eq_iff_respelled {d d' : Json} {s s' : Schema} (h : resolve d = .ok s)
    (h' : resolve d' = .ok s') : s = s' ↔ Respelled d d' := by
  constructor
  · rintro rfl
    exact respelled_of_resolve h h'
  · exact eq_of_respelled h h'

/-- A document that leaves out what it can. -/
def terseDocument : Json := .object [
  ("definitions", .object [("id", .object [("type", .string "string")])]),
  ("properties", .object [
    ("key", .object [("ref", .string "id")]),
    ("rest", .object [("optionalProperties", .object [])])])]

/-- The same document in full, with its keywords in another order. -/
def fullDocument : Json := .object [
  ("additionalProperties", .bool false),
  ("optionalProperties", .object []),
  ("properties", .object [
    ("key", .object [("nullable", .bool false), ("ref", .string "id")]),
    ("rest", .object [("metadata", .object []), ("properties", .object [])])]),
  ("definitions", .object [("id", .object [("type", .string "string"), ("metadata", .object [])])])]

/-- The document with its properties in another order. -/
def turnedDocument : Json := .object [
  ("definitions", .object [("id", .object [("type", .string "string")])]),
  ("properties", .object [
    ("rest", .object [("optionalProperties", .object [])]),
    ("key", .object [("ref", .string "id")])])]

theorem resolve_terse_iff_respelled :
    resolve terseDocument = resolve fullDocument ∧ Respelled terseDocument fullDocument ∧
      resolve terseDocument ≠ resolve turnedDocument ∧
      ¬ Respelled terseDocument turnedDocument := by
  let keyNode : Node := .ref ⟨⟨["properties", "key"]⟩, false, none, []⟩ "id"
  let restNode : Node := .properties ⟨⟨["properties", "rest"]⟩, false, none, []⟩ [] [] false
  let schema (fields : List (String × Node)) : Schema :=
    ⟨[("id", .type ⟨⟨["definitions", "id"]⟩, false, some "id", []⟩ .string)],
      .properties ⟨⟨[]⟩, false, none, []⟩ fields [] false⟩
  have hterse : resolve terseDocument = .ok (schema [("key", keyNode), ("rest", restNode)]) := by
    with_unfolding_all rfl
  have hfull : resolve fullDocument = .ok (schema [("key", keyNode), ("rest", restNode)]) := by
    with_unfolding_all rfl
  have hturned : resolve turnedDocument = .ok (schema [("rest", restNode), ("key", keyNode)]) := by
    with_unfolding_all rfl
  have hne : schema [("key", keyNode), ("rest", restNode)] ≠
      schema [("rest", restNode), ("key", keyNode)] := by
    simp [schema]
  refine ⟨hterse.trans hfull.symm, (resolve_eq_iff_respelled hterse hfull).1 rfl, ?_, ?_⟩
  · rw [hterse, hturned]
    exact fun h => hne (Except.ok.inj h)
  · exact fun h => hne ((resolve_eq_iff_respelled hterse hturned).2 h)

end Typegen.Schema
