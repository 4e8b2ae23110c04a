import Typegen.Proofs.Grammar

/-!
# Resolving a document

What `resolveNode` does to a schema, as a relation: `Assembles` says how the node of a schema is put
together from what the schema says about itself and from the nodes of the schemas inside it.  With
it, `resolve` succeeds exactly on the well-formed documents, and whatever else it does is to report
a fault of the schema.
-/

namespace Typegen.Schema

/-! ## One step -/

/-- The form of a schema that says the given about itself. -/
def Head.form : Head → Form
  | empty => .empty
  | ref _ => .ref
  | type _ => .type
  | enum _ => .enum
  | elements => .elements
  | properties _ => .properties
  | values => .values
  | discriminator _ => .discriminator

/-- The node of a schema, from what the schema says and from the nodes inside it. -/
inductive Assembles (names : List String) (site : Site) (members : List (String × Json))
    (info : Info) : Head → Node → Prop
  | empty : Assembles names site members info .empty (.empty info)
  | ref (target : String) : Assembles names site members info (.ref target) (.ref info target)
  | type (p : Primitive) : Assembles names site members info (.type p) (.type info p)
  | enum (values : List String) :
      Assembles names site members info (.enum values) (.enum info values)
  | elements {item : Node}
      (hitem : resolveNode names ⟨site.path.push ["elements"], none, false⟩
        (valueAt members "elements") = .ok item) :
      Assembles names site members info .elements (.elements info item)
  | properties {required optional : List (String × Node)} (additional : Bool)
      (hrequired : resolveEntries names (site.path.push ["properties"])
        (membersAt members "properties") = .ok required)
      (hoptional : resolveEntries names (site.path.push ["optionalProperties"])
        (membersAt members "optionalProperties") = .ok optional) :
      Assembles names site members info (.properties additional)
        (.properties info required optional additional)
  | values {item : Node}
      (hitem : resolveNode names ⟨site.path.push ["values"], none, false⟩
        (valueAt members "values") = .ok item) :
      Assembles names site members info .values (.values info item)
  | discriminator {mapping : List (String × Node)} (tag : String)
      (hmapping : resolveBranches names site.definition tag (site.path.push ["mapping"])
        (membersAt members "mapping") = .ok mapping) :
      Assembles names site members info (.discriminator tag) (.discriminator info tag mapping)

section

variable {names : List String} {site : Site} {members entries : List (String × Json)} {node : Node}
  {tag key : String} {path : Pointer} {definition : Option String} {info : Info} {raw : Json}
  {α : Type} {nodes : List (String × Node)}

theorem resolveNode_object_eq_ok :
    resolveNode names site (.object members) = .ok node ↔
      ∃ info head, readSchema names site members = .ok (info, head) ∧
        Assembles names site members info head node := by
  rw [resolveNode, bind_eq_ok]
  constructor
  · rintro ⟨⟨info, head⟩, hread, h⟩
    refine ⟨info, head, hread, ?_⟩
    cases head <;> simp only [bind_eq_ok, pure_eq_ok] at h
    case empty => exact h ▸ .empty
    case ref target => exact h ▸ .ref target
    case type p => exact h ▸ .type p
    case enum values => exact h ▸ .enum values
    case elements =>
      obtain ⟨item, hitem, rfl⟩ := h
      exact .elements hitem
    case properties additional =>
      obtain ⟨required, hrequired, optional, hoptional, rfl⟩ := h
      exact .properties additional hrequired hoptional
    case values =>
      obtain ⟨item, hitem, rfl⟩ := h
      exact .values hitem
    case discriminator tag =>
      obtain ⟨mapping, hmapping, rfl⟩ := h
      exact .discriminator tag hmapping
  · rintro ⟨info, head, hread, h⟩
    refine ⟨(info, head), hread, ?_⟩
    cases h with
    | empty => rfl
    | ref target => rfl
    | type p => rfl
    | enum values => rfl
    | elements hitem => exact bind_eq_ok.2 ⟨_, hitem, rfl⟩
    | properties additional hrequired hoptional =>
      exact bind_eq_ok.2 ⟨_, hrequired, bind_eq_ok.2 ⟨_, hoptional, rfl⟩⟩
    | values hitem => exact bind_eq_ok.2 ⟨_, hitem, rfl⟩
    | discriminator tag hmapping => exact bind_eq_ok.2 ⟨_, hmapping, rfl⟩

theorem resolveNode_eq_ok_object (h : resolveNode names site raw = .ok node) :
    ∃ members, raw = .object members := by
  cases raw <;> simp [resolveNode, Site.fail] at h
  exact ⟨_, rfl⟩

/-! ## Lists of entries -/

theorem resolveEntries_eq_ok : resolveEntries names path entries = .ok nodes ↔
      List.Forall₂ (fun e m => m.1 = e.1 ∧
        resolveNode names ⟨path.push [e.1], none, false⟩ e.2 = .ok m.2) entries nodes :=
  traverse_entries_eq_ok (f := fun key raw => resolveNode names ⟨path.push [key], none, false⟩ raw)
    (by rw [resolveEntries]) (fun key raw rest => by rw [resolveEntries])

theorem resolveDefinitions_eq_ok :
    resolveDefinitions names entries = .ok nodes ↔
      List.Forall₂ (fun e m => m.1 = e.1 ∧ resolveNode names
        ⟨Pointer.root.push ["definitions", e.1], some e.1, false⟩ e.2 = .ok m.2) entries nodes :=
  traverse_entries_eq_ok
    (f := fun name raw => resolveNode names
      ⟨Pointer.root.push ["definitions", name], some name, false⟩ raw)
    (by rw [resolveDefinitions]) (fun name raw rest => by rw [resolveDefinitions])

theorem resolveBranches_eq_ok :
    resolveBranches names definition tag path entries = .ok nodes ↔
      List.Forall₂ (fun e m => m.1 = e.1 ∧
        resolveNode names ⟨path.push [e.1], none, false⟩ e.2 = .ok m.2 ∧
        checkBranch definition tag e.1 m.2 = .ok ()) entries nodes := by
  let resolveBranch (value : String) (raw : Json) : Except Failure Node := do
    let node ← resolveNode names ⟨path.push [value], none, false⟩ raw
    checkBranch definition tag value node
    return node
  have hstep : ∀ value raw node, resolveBranch value raw = .ok node ↔
      resolveNode names ⟨path.push [value], none, false⟩ raw = .ok node ∧
        checkBranch definition tag value node = .ok () := by
    intro value raw node
    simp only [resolveBranch, bind_eq_ok, pure_eq_ok]
    constructor
    · rintro ⟨node, hnode, ⟨⟩, hbranch, rfl⟩
      exact ⟨hnode, hbranch⟩
    · rintro ⟨hnode, hbranch⟩
      exact ⟨node, hnode, (), hbranch, rfl⟩
  rw [traverse_entries_eq_ok (f := resolveBranch) (by rw [resolveBranches])]
  · simp only [hstep]
  · intro value raw rest
    rw [resolveBranches]
    simp only [resolveBranch, bind_assoc, pure_bind]

/-! ## Forms of heads -/

theorem form_of_readHead {form : Form} {head : Head}
    (h : readHead names site members form = .ok head) : head.form = form := by
  cases form with
  | empty => cases h; rfl
  | ref => obtain ⟨_, -, -, rfl⟩ := readHead_ref.1 h; rfl
  | type => obtain ⟨_, -, rfl⟩ := readHead_type.1 h; rfl
  | enum => obtain ⟨_, -, -, -, rfl⟩ := readHead_enum.1 h; rfl
  | elements => cases h; rfl
  | properties => obtain ⟨_, _, _, -, -, -, -, rfl⟩ := readHead_properties.1 h; rfl
  | values => cases h; rfl
  | discriminator => obtain ⟨_, _, -, -, -, rfl⟩ := readHead_discriminator.1 h; rfl

theorem form_of_selects {head : Head} {form : Form}
    (h : readSchema names site members = .ok (info, head)) (hsel : Selects members form) :
    head.form = form := by
  obtain ⟨form', hform, -, -, hhead⟩ := readSchema_eq_ok.1 h
  rw [form_of_readHead hhead, eq_of_readForm hform hsel]

theorem selects_of_form {head : Head} (h : readSchema names site members = .ok (info, head))
    (hne : head.form ≠ .empty) : Selects members head.form := by
  obtain ⟨form, hform, -, -, hhead⟩ := readSchema_eq_ok.1 h
  rw [form_of_readHead hhead] at hne ⊢
  rcases readForm_eq_ok.1 hform with ⟨hsel, -⟩ | ⟨hempty, -⟩
  · exact hsel
  · exact absurd hempty hne

theorem info_of_readSchema {head : Head} (h : readSchema names site members = .ok (info, head)) :
    info.path = site.path ∧ info.definition = site.definition ∧
      readFlag members "nullable" = some info.nullable := by
  obtain ⟨-, -, -, hinfo, -⟩ := readSchema_eq_ok.1 h
  obtain ⟨nullable, metadata, hnullable, -, rfl⟩ := readInfo_eq_ok.1 hinfo
  exact ⟨rfl, rfl, hnullable⟩

theorem tag_of_readSchema (h : readSchema names site members = .ok (info, .discriminator tag)) :
    Json.get? members "discriminator" = some (.string tag) := by
  obtain ⟨form, -, -, -, hhead⟩ := readSchema_eq_ok.1 h
  obtain rfl := form_of_readHead hhead
  obtain ⟨tag', -, hget, -, -, heq⟩ := readHead_discriminator.1 hhead
  cases heq
  exact hget

/-- Nothing is given under a keyword that belongs neither to all schemas nor to the form. -/
theorem get?_eq_none {head : Head} (hread : readSchema names site members = .ok (info, head))
    (hnullable : key ≠ "nullable") (hmetadata : key ≠ "metadata")
    (hdefinitions : key ≠ "definitions") (hown : key ∉ head.form.keywords) :
    Json.get? members key = none := by
  obtain ⟨form, -, hkeys, -, hhead⟩ := readSchema_eq_ok.1 hread
  obtain rfl := form_of_readHead hhead
  by_contra hsome
  obtain ⟨v, hv⟩ := Option.ne_none_iff_exists'.1 hsome
  rcases checkKeywords_eq_ok.1 hkeys key (Json.mem_keys_iff.2 ⟨v, hv⟩) with h | h | ⟨h, -⟩ | h
  · exact hnullable h
  · exact hmetadata h
  · exact hdefinitions h
  · exact hown (ownKeyword_iff.1 h)

theorem ne_true_iff_of_readFlag {b : Bool} (h : readFlag members key = some b) :
    Json.get? members key ≠ some (.bool true) ↔ b = false := by
  revert h
  unfold readFlag
  rcases Json.get? members key with _ | v
  · simp [eq_comm]
  · cases v <;> simp +contextual

theorem valueAt_of_get? {v : Json} (h : Json.get? members key = some v) :
    valueAt members key = v := by
  rw [valueAt, h, Option.getD_some]

theorem membersAt_of_get? {ms : List (String × Json)}
    (h : Json.get? members key = some (.object ms)) : membersAt members key = ms := by
  simp only [membersAt, h]

theorem notMem_keys_membersAt {k : String} : k ∉ Json.keys (membersAt members key) ↔
    ∀ es, Json.get? members key = some (.object es) → k ∉ Json.keys es := by
  unfold membersAt
  rcases Json.get? members key with _ | v
  · simp [Json.keys]
  · cases v <;> simp [Json.keys]

theorem mem_membersAt {e : String × Json} (h : e ∈ membersAt members key) :
    ∃ es, Json.get? members key = some (.object es) ∧ e ∈ es := by
  unfold membersAt at h
  split at h
  · next es hes => exact ⟨es, hes, h⟩
  · simp at h

theorem place_of_resolveNode (h : resolveNode names site raw = .ok node) :
    node.info.path = site.path ∧ node.info.definition = site.definition := by
  obtain ⟨members, rfl⟩ := resolveNode_eq_ok_object h
  obtain ⟨info, head, hread, hnode⟩ := resolveNode_object_eq_ok.1 h
  have hinfo : node.info = info := by cases hnode <;> rfl
  obtain ⟨hpath, hdefinition, -⟩ := info_of_readSchema hread
  rw [hinfo]
  exact ⟨hpath, hdefinition⟩

/-! ## Branches -/

/-- A node that can be a branch of a discriminator with the given tag. -/
def Node.IsBranch (tag : String) (node : Node) : Prop :=
  ∃ info required optional additional, node = .properties info required optional additional ∧
    info.nullable = false ∧ tag ∉ (required ++ optional).map Prod.fst

theorem checkBranch_eq_ok {value : String} :
    checkBranch definition tag value node = .ok () ↔ node.IsBranch tag := by
  unfold checkBranch Node.IsBranch
  cases node with
  | properties info required optional additional =>
    have htag : (required ++ optional).any (fun e => e.1 == tag) = true ↔
        tag ∈ (required ++ optional).map Prod.fst := by
      simp only [List.any_eq_true, beq_iff_eq, List.mem_map]
    constructor
    · intro h
      simp only at h
      split_ifs at h with hnull hdeclared
      · simp [Site.fail] at h
      · simp [Site.fail] at h
      · exact ⟨info, required, optional, additional, rfl, by simpa using hnull,
          fun hmem => hdeclared (htag.2 hmem)⟩
    · rintro ⟨info', required', optional', additional', heq, hnull, hdeclared⟩
      cases heq
      simp only
      rw [if_neg (by simp [hnull]), if_neg fun h => hdeclared (htag.1 h)]
  | _ => simp [Site.fail]

/-- The rule for branches can be read off the document or off the node. -/
theorem isBranch_iff (h : resolveNode names site raw = .ok node) :
    IsBranch tag raw ↔ node.IsBranch tag := by
  obtain ⟨members, rfl⟩ := resolveNode_eq_ok_object h
  obtain ⟨info, head, hread, hnode⟩ := resolveNode_object_eq_ok.1 h
  have hflag := ne_true_iff_of_readFlag (info_of_readSchema hread).2.2
  constructor
  · rintro ⟨members', heq, hsel, hnullable, htag⟩
    cases heq
    have hform := form_of_selects hread hsel
    cases hnode with
    | properties additional hrequired hoptional =>
      refine ⟨info, _, _, additional, rfl, hflag.1 hnullable, ?_⟩
      rw [List.map_append, map_fst_of_forall₂ (resolveEntries_eq_ok.1 hrequired),
        map_fst_of_forall₂ (resolveEntries_eq_ok.1 hoptional), List.mem_append, not_or]
      exact ⟨notMem_keys_membersAt.2 (htag _ (by simp)), notMem_keys_membersAt.2 (htag _ (by simp))⟩
    | _ => simp [Head.form] at hform
  · rintro ⟨info', required, optional, additional, rfl, hnullable, htag⟩
    cases hnode with
    | properties _ hrequired hoptional =>
      rw [List.map_append, map_fst_of_forall₂ (resolveEntries_eq_ok.1 hrequired),
        map_fst_of_forall₂ (resolveEntries_eq_ok.1 hoptional), List.mem_append, not_or] at htag
      refine ⟨members, rfl, selects_of_form hread (by simp [Head.form]), hflag.2 hnullable, ?_⟩
      intro key hkey
      simp only [List.mem_cons, List.not_mem_nil, or_false] at hkey
      rcases hkey with rfl | rfl
      · exact notMem_keys_membersAt.1 htag.1
      · exact notMem_keys_membersAt.1 htag.2

/-! ## Trees of schemas -/

/-- Only well-formed schemas have a node. -/
theorem wellFormed_of_resolveNode : ∀ (site : Site) (raw : Json) (node : Node),
    resolveNode names site raw = .ok node → WellFormed names site.isRoot raw := by
  refine (resolveNode.mutual_induct
    (fun site raw => ∀ node, resolveNode names site raw = .ok node →
      WellFormed names site.isRoot raw)
    (fun definition tag path entries => ∀ nodes,
      resolveBranches names definition tag path entries = .ok nodes →
        ∀ e ∈ entries, WellFormed names false e.2 ∧ IsBranch tag e.2)
    (fun path entries => ∀ nodes, resolveEntries names path entries = .ok nodes →
      ∀ e ∈ entries, WellFormed names false e.2)
    ?object ?other ?noBranch ?branch ?noEntry ?entry).1
  case object =>
    intro site members ihElements ihRequired ihOptional ihValues ihMapping node h
    obtain ⟨info, head, hread, hnode⟩ := resolveNode_object_eq_ok.1 h
    have hrules := localRules_of_readSchema hread
    have hmapping : ∀ es, Json.get? members "mapping" = some (.object es) →
        ∃ tag, head = .discriminator tag ∧
          ∀ e ∈ es, WellFormed names false e.2 ∧ IsBranch tag e.2 := by
      intro es hes
      have hform := form_of_selects hread (hrules.mapping _ hes)
      cases hnode with
      | discriminator tag hbranches =>
        rw [← membersAt_of_get? hes]
        exact ⟨tag, rfl, ihMapping tag _ hbranches⟩
      | _ => simp [Head.form] at hform
    refine .object hrules ?items ?entries ?branches
    case items =>
      intro key hkey v hv
      simp only [List.mem_cons, List.not_mem_nil, or_false] at hkey
      rcases hkey with rfl | rfl
      · have hform := form_of_selects hread (selects_of_get? .elements hv)
        cases hnode with
        | elements hitem =>
          rw [← valueAt_of_get? hv]
          exact ihElements _ hitem
        | _ => simp [Head.form] at hform
      · have hform := form_of_selects hread (selects_of_get? .values hv)
        cases hnode with
        | values hitem =>
          rw [← valueAt_of_get? hv]
          exact ihValues _ hitem
        | _ => simp [Head.form] at hform
    case entries =>
      intro key hkey es hes
      simp only [List.mem_cons, List.not_mem_nil, or_false] at hkey
      rcases hkey with rfl | rfl | rfl
      · have hform := form_of_selects hread (selects_of_get? .properties hes)
        cases hnode with
        | properties additional hrequired hoptional =>
          rw [← membersAt_of_get? hes]
          exact ihRequired _ hrequired
        | _ => simp [Head.form] at hform
      · have hform := form_of_selects hread (selects_of_get? .optionalProperties hes)
        cases hnode with
        | properties additional hrequired hoptional =>
          rw [← membersAt_of_get? hes]
          exact ihOptional _ hoptional
        | _ => simp [Head.form] at hform
      · obtain ⟨tag, -, hall⟩ := hmapping es hes
        exact fun e he => (hall e he).1
    case branches =>
      intro tag es htag hes
      obtain ⟨tag', hhead, hall⟩ := hmapping es hes
      subst hhead
      rw [tag_of_readSchema hread] at htag
      cases htag
      exact fun e he => (hall e he).2
  case other =>
    intro site raw hraw node h
    obtain ⟨members, rfl⟩ := resolveNode_eq_ok_object h
    exact absurd rfl (hraw members)
  case noBranch => simp
  case branch =>
    intro definition tag path value raw rest ihNode ihRest nodes h
    obtain ⟨⟨_, node⟩, others, ⟨rfl, hnode, hbranch⟩, hothers, rfl⟩ :=
      List.forall₂_cons_left_iff.1 (resolveBranches_eq_ok.1 h)
    intro e he
    rcases List.mem_cons.1 he with rfl | he
    · exact ⟨ihNode node hnode, (isBranch_iff hnode).2 (checkBranch_eq_ok.1 hbranch)⟩
    · exact ihRest others (resolveBranches_eq_ok.2 hothers) e he
  case noEntry => simp
  case entry =>
    intro path key raw rest ihNode ihRest nodes h
    obtain ⟨⟨_, node⟩, others, ⟨rfl, hnode⟩, hothers, rfl⟩ :=
      List.forall₂_cons_left_iff.1 (resolveEntries_eq_ok.1 h)
    intro e he
    rcases List.mem_cons.1 he with rfl | he
    · exact ihNode node hnode
    · exact ihRest others (resolveEntries_eq_ok.2 hothers) e he

theorem exists_resolveEntries (h : ∀ e ∈ entries, ∀ site : Site, site.isRoot = false →
      ∃ node, resolveNode names site e.2 = .ok node) :
    ∃ nodes, resolveEntries names path entries = .ok nodes := by
  simp only [resolveEntries_eq_ok]
  refine exists_forall₂ fun e he => ?_
  obtain ⟨node, hnode⟩ := h e he ⟨path.push [e.1], none, false⟩ rfl
  exact ⟨(e.1, node), rfl, hnode⟩

theorem exists_resolveBranches (h : ∀ e ∈ entries, ∀ site : Site, site.isRoot = false →
      ∃ node, resolveNode names site e.2 = .ok node) (hbranch : ∀ e ∈ entries, IsBranch tag e.2) :
    ∃ nodes, resolveBranches names definition tag path entries = .ok nodes := by
  simp only [resolveBranches_eq_ok]
  refine exists_forall₂ fun e he => ?_
  obtain ⟨node, hnode⟩ := h e he ⟨path.push [e.1], none, false⟩ rfl
  exact ⟨(e.1, node), rfl, hnode, checkBranch_eq_ok.2 ((isBranch_iff hnode).1 (hbranch e he))⟩

/-- Every well-formed schema has a node. -/
theorem WellFormed.exists_resolveNode {atRoot : Bool} (h : WellFormed names atRoot raw) :
    ∀ site : Site, site.isRoot = atRoot → ∃ node, resolveNode names site raw = .ok node := by
  induction h with
  | @object atRoot members rules items entries branches ihItems ihEntries =>
    intro site hroot
    subst hroot
    have hentries : ∀ key ∈ ["properties", "optionalProperties", "mapping"],
        ∀ e ∈ membersAt members key, ∀ site : Site, site.isRoot = false →
          ∃ node, resolveNode names site e.2 = .ok node := by
      intro key hkey e he
      obtain ⟨es, hes, he⟩ := mem_membersAt he
      exact ihEntries key hkey es hes e he
    have hitem : ∀ key ∈ ["elements", "values"], key ∈ Json.keys members →
        ∃ item, resolveNode names ⟨site.path.push [key], none, false⟩ (valueAt members key) =
          .ok item := by
      intro key hkey hmem
      obtain ⟨v, hv⟩ := Json.mem_keys_iff.1 hmem
      rw [valueAt_of_get? hv]
      exact ihItems key hkey v hv _ rfl
    obtain ⟨info, head, hread⟩ := rules.exists_readSchema
    suffices hnode : ∃ node, Assembles names site members info head node by
      obtain ⟨node, hnode⟩ := hnode
      exact ⟨node, resolveNode_object_eq_ok.2 ⟨info, head, hread, hnode⟩⟩
    cases head with
    | empty => exact ⟨_, .empty⟩
    | ref target => exact ⟨_, .ref target⟩
    | type p => exact ⟨_, .type p⟩
    | enum values => exact ⟨_, .enum values⟩
    | elements =>
      obtain ⟨key, hkey, hs⟩ := selects_of_form hread (by simp [Head.form])
      cases hs
      obtain ⟨item, hitem⟩ := hitem "elements" (by simp) hkey
      exact ⟨_, .elements hitem⟩
    | properties additional =>
      obtain ⟨required, hrequired⟩ := exists_resolveEntries (hentries "properties" (by simp))
      obtain ⟨optional, hoptional⟩ :=
        exists_resolveEntries (hentries "optionalProperties" (by simp))
      exact ⟨_, .properties additional hrequired hoptional⟩
    | values =>
      obtain ⟨key, hkey, hs⟩ := selects_of_form hread (by simp [Head.form])
      cases hs
      obtain ⟨item, hitem⟩ := hitem "values" (by simp) hkey
      exact ⟨_, .values hitem⟩
    | discriminator tag =>
      have htag := tag_of_readSchema hread
      obtain ⟨mapping, hmapping⟩ := exists_resolveBranches (hentries "mapping" (by simp))
        fun e he => by
          obtain ⟨es, hes, he⟩ := mem_membersAt he
          exact branches tag es htag hes e he
      exact ⟨_, .discriminator tag hmapping⟩

/-! ## Faults -/

/-- If the operation fails, its failure has a property. -/
def FailsWith {α : Type} (P : Failure → Prop) (x : Except Failure α) : Prop :=
  ∀ failure, x = .error failure → P failure

/-- A failure that reports a fault of the schema. -/
def IsFault (failure : Failure) : Prop := ∃ fault context, failure = .ofSchema fault context

/-- A failure that reports a fault of the schema at a place, on account of a definition. -/
def IsFaultAt (path : Pointer) (definition : Option String) (failure : Failure) : Prop :=
  ∃ fault form, failure =
    .ofSchema fault { path := some path.text, definition := definition, form := form }

theorem failsWith_ok {P : Failure → Prop} (a : α) : FailsWith P (.ok a) := by
  intro failure h
  cases h

theorem failsWith_fail (site : Site) (fault : Fault) (form : Option Form) :
    FailsWith (IsFaultAt site.path site.definition) (site.fail fault form : Except Failure α) := by
  intro failure h
  cases h
  exact ⟨_, _, rfl⟩

theorem FailsWith.isFault {x : Except Failure α} (h : FailsWith (IsFaultAt path definition) x) :
    FailsWith IsFault x := by
  intro failure hx
  obtain ⟨fault, form, rfl⟩ := h failure hx
  exact ⟨_, _, rfl⟩

theorem FailsWith.bind {β : Type} {P : Failure → Prop} {x : Except Failure α}
    {f : α → Except Failure β} (hx : FailsWith P x) (hf : ∀ a, x = .ok a → FailsWith P (f a)) :
    FailsWith P (x >>= f) := by
  cases x with
  | error e =>
    intro failure h
    cases h
    exact hx e rfl
  | ok a => exact hf a rfl

theorem failsWith_readHead (form : Form) :
    FailsWith (IsFaultAt site.path site.definition) (readHead names site members form) := by
  cases form with
  | empty => exact failsWith_ok _
  | ref =>
    simp only [readHead]
    split
    · split_ifs
      · exact failsWith_ok _
      · exact failsWith_fail _ _ _
    · exact failsWith_fail _ _ _
  | type =>
    simp only [readHead]
    split
    · split
      · exact failsWith_ok _
      · exact failsWith_fail _ _ _
    · exact failsWith_fail _ _ _
  | enum =>
    simp only [readHead, readEnum]
    split
    · split
      · exact failsWith_fail _ _ _
      · exact failsWith_fail _ _ _
      · split
        · exact failsWith_fail _ _ _
        · exact failsWith_ok _
    · exact failsWith_fail _ _ _
  | elements => exact failsWith_ok _
  | properties =>
    simp only [readHead, readProperties]
    split
    · exact failsWith_fail _ _ _
    · exact failsWith_fail _ _ _
    · split
      · split
        · exact failsWith_ok _
        · exact failsWith_fail _ _ _
      · exact failsWith_fail _ _ _
  | values => exact failsWith_ok _
  | discriminator =>
    simp only [readHead, readDiscriminator]
    split
    · split
      · exact failsWith_fail _ _ _
      · exact failsWith_ok _
      · exact failsWith_fail _ _ _
    · exact failsWith_fail _ _ _

theorem failsWith_readSchema :
    FailsWith (IsFaultAt site.path site.definition) (readSchema names site members) := by
  unfold readSchema
  refine FailsWith.bind ?form fun form _ => .bind ?keywords fun _ _ => .bind ?info fun info _ =>
    .bind (failsWith_readHead form) fun head _ => failsWith_ok _
  case form =>
    unfold readForm
    split
    · split_ifs
      · exact failsWith_fail _ _ _
      · exact failsWith_fail _ _ _
      · exact failsWith_ok _
    · exact failsWith_ok _
    · exact failsWith_fail _ _ _
  case keywords =>
    unfold checkKeywords
    simp only
    split
    · exact failsWith_ok _
    · split_ifs
      · exact failsWith_fail _ _ _
      · exact failsWith_fail _ _ _
  case info =>
    unfold readInfo
    split
    · exact failsWith_fail _ _ _
    · exact failsWith_fail _ _ _
    · exact failsWith_ok _

theorem failsWith_checkBranch {value : String} :
    FailsWith (IsFaultAt node.path definition) (checkBranch definition tag value node) := by
  unfold checkBranch
  simp only
  split
  · split_ifs
    · exact failsWith_fail _ _ _
    · exact failsWith_fail _ _ _
    · exact failsWith_ok _
  · exact failsWith_fail _ _ _

theorem reportsFaults_resolveNode :
    ∀ (site : Site) (raw : Json), FailsWith IsFault (resolveNode names site raw) := by
  refine (resolveNode.mutual_induct
    (fun site raw => FailsWith IsFault (resolveNode names site raw))
    (fun definition tag path entries =>
      FailsWith IsFault (resolveBranches names definition tag path entries))
    (fun path entries => FailsWith IsFault (resolveEntries names path entries))
    ?object ?other ?noBranch ?branch ?noEntry ?entry).1
  case object =>
    intro site members ihElements ihRequired ihOptional ihValues ihMapping
    rw [resolveNode]
    refine failsWith_readSchema.isFault.bind ?_
    rintro ⟨info, head⟩ -
    cases head with
    | elements => exact ihElements.bind fun _ _ => failsWith_ok _
    | properties _ =>
      exact ihRequired.bind fun _ _ => ihOptional.bind fun _ _ => failsWith_ok _
    | values => exact ihValues.bind fun _ _ => failsWith_ok _
    | discriminator tag => exact (ihMapping tag).bind fun _ _ => failsWith_ok _
    | _ => exact failsWith_ok _
  case other =>
    intro site raw hraw
    rw [resolveNode]
    · exact (failsWith_fail _ _ _).isFault
    · exact hraw
  case noBranch =>
    intro definition tag path
    rw [resolveBranches]
    exact failsWith_ok _
  case branch =>
    intro definition tag path value raw rest ihNode ihRest
    rw [resolveBranches]
    exact ihNode.bind fun _ _ => failsWith_checkBranch.isFault.bind fun _ _ =>
      ihRest.bind fun _ _ => failsWith_ok _
  case noEntry =>
    intro path
    rw [resolveEntries]
    exact failsWith_ok _
  case entry =>
    intro path key raw rest ihNode ihRest
    rw [resolveEntries]
    exact ihNode.bind fun _ _ => ihRest.bind fun _ _ => failsWith_ok _

theorem reportsFaults_resolveDefinitions (entries : List (String × Json)) :
    FailsWith IsFault (resolveDefinitions names entries) := by
  induction entries with
  | nil => exact failsWith_ok _
  | cons e rest ih =>
    rw [resolveDefinitions]
    exact (reportsFaults_resolveNode _ _).bind fun _ _ => ih.bind fun _ _ => failsWith_ok _

end

/-! ## Documents -/

variable {schema : Schema} {document : Json}

theorem resolve_object_eq_ok {members : List (String × Json)} :
    resolve (.object members) = .ok schema ↔
      ∃ raw, readObject members "definitions" = some raw ∧
        resolveDefinitions (Json.keys raw) raw = .ok schema.definitions ∧
        resolveNode (Json.keys raw) ⟨.root, none, true⟩ (.object members) = .ok schema.root := by
  simp only [resolve]
  rcases readObject members "definitions" with _ | raw
  · simp
  · simp only [bind_eq_ok, pure_eq_ok, Option.some.injEq, exists_eq_left']
    constructor
    · rintro ⟨definitions, hdefinitions, root, hroot, rfl⟩
      exact ⟨hdefinitions, hroot⟩
    · rintro ⟨hdefinitions, hroot⟩
      exact ⟨_, hdefinitions, _, hroot, rfl⟩

theorem resolve_eq_ok_object (h : resolve document = .ok schema) :
    ∃ members, document = .object members := by
  cases document <;> simp [resolve] at h
  exact ⟨_, rfl⟩

theorem wellFormedDocument_of_resolve (h : resolve document = .ok schema) :
    WellFormedDocument document := by
  obtain ⟨members, rfl⟩ := resolve_eq_ok_object h
  obtain ⟨raw, hraw, hdefinitions, hroot⟩ := resolve_object_eq_ok.1 h
  refine ⟨members, raw, rfl, readObject_eq_some.1 hraw, ?_, wellFormed_of_resolveNode _ _ _ hroot⟩
  intro e he
  obtain ⟨m, -, -, hm⟩ := exists_of_mem_left (resolveDefinitions_eq_ok.1 hdefinitions) he
  exact wellFormed_of_resolveNode _ _ _ hm

theorem WellFormedDocument.exists_resolve (h : WellFormedDocument document) :
    ∃ schema, resolve document = .ok schema := by
  obtain ⟨members, definitions, rfl, hget, hdefinitions, hroot⟩ := h
  obtain ⟨nodes, hnodes⟩ : ∃ nodes,
      resolveDefinitions (Json.keys definitions) definitions = .ok nodes := by
    simp only [resolveDefinitions_eq_ok]
    refine exists_forall₂ fun e he => ?_
    obtain ⟨node, hnode⟩ := (hdefinitions e he).exists_resolveNode
      ⟨Pointer.root.push ["definitions", e.1], some e.1, false⟩ rfl
    exact ⟨(e.1, node), rfl, hnode⟩
  obtain ⟨root, hroot⟩ := hroot.exists_resolveNode ⟨.root, none, true⟩ rfl
  exact ⟨⟨nodes, root⟩, resolve_object_eq_ok.2
    ⟨definitions, readObject_eq_some.2 hget, hnodes, hroot⟩⟩

theorem reportsFaults_resolve (document : Json) : FailsWith IsFault (resolve document) := by
  unfold resolve
  split
  · split
    · intro failure h
      cases h
      exact ⟨_, _, rfl⟩
    · exact (reportsFaults_resolveDefinitions _).bind fun _ _ =>
        (reportsFaults_resolveNode _ _).bind fun _ _ => failsWith_ok _
  · intro failure h
    cases h
    exact ⟨_, _, rfl⟩

/-- A document can be resolved exactly when it follows the rules of the grammar; any other document
is refused with a fault of the schema. -/
theorem resolve_ok_iff_wellFormedDocument (document : Json) :
    ((∃ schema, resolve document = .ok schema) ↔ WellFormedDocument document) ∧
      (¬ WellFormedDocument document →
        ∃ fault context, resolve document = .error (.ofSchema fault context)) := by
  have hiff : (∃ schema, resolve document = .ok schema) ↔ WellFormedDocument document :=
    ⟨fun ⟨_, h⟩ => wellFormedDocument_of_resolve h, fun h => h.exists_resolve⟩
  refine ⟨hiff, fun hnot => ?_⟩
  cases h : resolve document with
  | ok schema => exact absurd (hiff.1 ⟨schema, h⟩) hnot
  | error failure =>
    obtain ⟨fault, context, rfl⟩ := reportsFaults_resolve document failure h
    exact ⟨fault, context, rfl⟩

end Typegen.Schema
