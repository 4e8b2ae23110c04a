import Typegen.Proofs.Places
import Typegen.Proofs.Resolution
import Typegen.Schema.Reference

/-!
# Resolved schemas

What is known of the nodes that come out of a document whose objects repeat no key: every node is at
the place where its schema stands, keys and values are distinct, references lead to definitions and
branches are as branches have to be.  `Node.Sound` says so for a node and all nodes below it, and
`Schema.Sound` for a whole schema.  It follows that the nodes of a schema are all at different
places.
-/

namespace Typegen.Schema

/-! ## Sound nodes -/

/-- A node is at a place, and it and the nodes below it are as the rules of schemas demand. -/
inductive Node.Sound (names : List String) : Pointer → Node → Prop
  | empty {p : Pointer} {info : Info} (hpath : info.path = p) : Sound names p (.empty info)
  | ref {p : Pointer} {info : Info} {target : String} (hpath : info.path = p)
      (htarget : target ∈ names) : Sound names p (.ref info target)
  | type {p : Pointer} {info : Info} {primitive : Primitive} (hpath : info.path = p) :
      Sound names p (.type info primitive)
  | enum {p : Pointer} {info : Info} {values : List String} (hpath : info.path = p)
      (hvalues : values.Nodup) : Sound names p (.enum info values)
  | elements {p : Pointer} {info : Info} {item : Node} (hpath : info.path = p)
      (hitem : Sound names (p.push ["elements"]) item) : Sound names p (.elements info item)
  | properties {p : Pointer} {info : Info} {required optional : List (String × Node)}
      {additional : Bool} (hpath : info.path = p)
      (hkeys : ((required ++ optional).map Prod.fst).Nodup)
      (hrequired : ∀ e ∈ required, Sound names (p.push ["properties", e.1]) e.2)
      (hoptional : ∀ e ∈ optional, Sound names (p.push ["optionalProperties", e.1]) e.2) :
      Sound names p (.properties info required optional additional)
  | values {p : Pointer} {info : Info} {item : Node} (hpath : info.path = p)
      (hitem : Sound names (p.push ["values"]) item) : Sound names p (.values info item)
  | discriminator {p : Pointer} {info : Info} {tag : String} {mapping : List (String × Node)}
      (hpath : info.path = p) (hkeys : (mapping.map Prod.fst).Nodup)
      (hmapping : ∀ e ∈ mapping, Sound names (p.push ["mapping", e.1]) e.2)
      (hbranches : ∀ e ∈ mapping, e.2.IsBranch tag) :
      Sound names p (.discriminator info tag mapping)

variable {n c : Node} {s : Schema}

theorem Node.Sound.path_eq {names : List String} {p : Pointer} (h : n.Sound names p) :
    n.path = p := by
  cases h <;> assumption

/-- The definitions have different names, and all nodes are sound. -/
structure Sound (s : Schema) : Prop where
  nodup_names : s.names.Nodup
  definitions : ∀ e ∈ s.definitions, e.2.Sound s.names (Pointer.root.push ["definitions", e.1])
  root : s.root.Sound s.names .root

/-! ## From documents -/

section

variable {names : List String}

theorem distinct_valueAt {members : List (String × Json)} (h : (Json.object members).Distinct)
    (key : String) : (valueAt members key).Distinct := by
  unfold valueAt
  cases hget : Json.get? members key with
  | none => exact .null
  | some v => exact h.of_get? hget

theorem distinct_membersAt {members : List (String × Json)} (h : (Json.object members).Distinct)
    (key : String) : (Json.object (membersAt members key)).Distinct := by
  unfold membersAt
  split
  · next ms hget => exact h.of_get? hget
  · simp [Json.keys]

theorem sound_of_resolveNode : ∀ (site : Site) (raw : Json), raw.Distinct → ∀ node : Node,
    resolveNode names site raw = .ok node → node.Sound names site.path := by
  refine (resolveNode.mutual_induct
    (fun site raw => raw.Distinct → ∀ node, resolveNode names site raw = .ok node →
      node.Sound names site.path)
    (fun definition tag path entries => (∀ e ∈ entries, e.2.Distinct) → ∀ nodes,
      resolveBranches names definition tag path entries = .ok nodes →
        ∀ e ∈ nodes, e.2.Sound names (path.push [e.1]) ∧ e.2.IsBranch tag)
    (fun path entries => (∀ e ∈ entries, e.2.Distinct) → ∀ nodes,
      resolveEntries names path entries = .ok nodes →
        ∀ e ∈ nodes, e.2.Sound names (path.push [e.1]))
    ?object ?other ?noBranch ?branch ?noEntry ?entry).1
  case object =>
    intro site members ihElements ihRequired ihOptional ihValues ihMapping hdistinct node h
    obtain ⟨info, head, hread, hnode⟩ := resolveNode_object_eq_ok.1 h
    have hpath : info.path = site.path := (info_of_readSchema hread).1
    obtain ⟨form, -, -, -, hhead⟩ := readSchema_eq_ok.1 hread
    obtain rfl := form_of_readHead hhead
    have hentries := fun key => Json.distinct_object_iff.1 (distinct_membersAt hdistinct key)
    cases hnode with
    | empty => exact .empty hpath
    | ref target =>
      obtain ⟨target', -, htarget, heq⟩ := readHead_ref.1 hhead
      cases heq
      exact .ref hpath htarget
    | type p => exact .type hpath
    | enum values =>
      obtain ⟨values', -, -, hnodup, heq⟩ := readHead_enum.1 hhead
      cases heq
      exact .enum hpath hnodup
    | elements hitem =>
      exact .elements hpath (ihElements (distinct_valueAt hdistinct _) _ hitem)
    | properties additional hrequired hoptional =>
      obtain ⟨raw, raw', -, hreq, hopt, hdisjoint, -⟩ := readHead_properties.1 hhead
      refine .properties hpath ?_ ?_ ?_
      · rw [List.map_append, map_fst_of_forall₂ (resolveEntries_eq_ok.1 hrequired),
          map_fst_of_forall₂ (resolveEntries_eq_ok.1 hoptional), List.nodup_append']
        refine ⟨(hentries _).1, (hentries _).1, ?_⟩
        rw [membersAt_of_readObject hreq, membersAt_of_readObject hopt]
        exact fun key hkey hkey' => hdisjoint key hkey hkey'
      · intro e he
        have := ihRequired (hentries _).2 _ hrequired e he
        rwa [Pointer.push_push] at this
      · intro e he
        have := ihOptional (hentries _).2 _ hoptional e he
        rwa [Pointer.push_push] at this
    | values hitem =>
      exact .values hpath (ihValues (distinct_valueAt hdistinct _) _ hitem)
    | discriminator tag hmapping =>
      have hall := ihMapping tag (hentries _).2 _ hmapping
      refine .discriminator hpath ?_ ?_ fun e he => (hall e he).2
      · rw [map_fst_of_forall₂ (resolveBranches_eq_ok.1 hmapping)]
        exact (hentries _).1
      · intro e he
        have := (hall e he).1
        rwa [Pointer.push_push] at this
  case other =>
    intro site raw hraw _ node h
    obtain ⟨members, rfl⟩ := resolveNode_eq_ok_object h
    exact absurd rfl (hraw members)
  case noBranch =>
    intro definition tag path _ nodes h
    rw [resolveBranches] at h
    cases h
    simp
  case branch =>
    intro definition tag path value raw rest ihNode ihRest hdistinct nodes h
    obtain ⟨⟨_, node⟩, others, ⟨rfl, hnode, hbranch⟩, hothers, rfl⟩ :=
      List.forall₂_cons_left_iff.1 (resolveBranches_eq_ok.1 h)
    rw [List.forall_mem_cons] at hdistinct
    intro e he
    rcases List.mem_cons.1 he with rfl | he
    · exact ⟨ihNode hdistinct.1 node hnode, checkBranch_eq_ok.1 hbranch⟩
    · exact ihRest hdistinct.2 others (resolveBranches_eq_ok.2 hothers) e he
  case noEntry =>
    intro path _ nodes h
    rw [resolveEntries] at h
    cases h
    simp
  case entry =>
    intro path key raw rest ihNode ihRest hdistinct nodes h
    obtain ⟨⟨_, node⟩, others, ⟨rfl, hnode⟩, hothers, rfl⟩ :=
      List.forall₂_cons_left_iff.1 (resolveEntries_eq_ok.1 h)
    rw [List.forall_mem_cons] at hdistinct
    intro e he
    rcases List.mem_cons.1 he with rfl | he
    · exact ihNode hdistinct.1 node hnode
    · exact ihRest hdistinct.2 others (resolveEntries_eq_ok.2 hothers) e he

end

theorem sound_of_resolve {document : Json} {schema : Schema} (hdistinct : document.Distinct)
    (h : resolve document = .ok schema) : schema.Sound := by
  obtain ⟨members, rfl⟩ := resolve_eq_ok_object h
  obtain ⟨raw, hraw, hdefinitions, hroot⟩ := resolve_object_eq_ok.1 h
  have hentries := Json.distinct_object_iff.1 (distinct_membersAt hdistinct "definitions")
  rw [membersAt_of_readObject hraw] at hentries
  have hnames : schema.names = Json.keys raw :=
    map_fst_of_forall₂ (resolveDefinitions_eq_ok.1 hdefinitions)
  refine ⟨hnames ▸ hentries.1, fun e he => ?_, ?_⟩
  · obtain ⟨m, hm, hkey, hnode⟩ := exists_of_mem_right (resolveDefinitions_eq_ok.1 hdefinitions) he
    rw [hnames, hkey]
    exact sound_of_resolveNode _ _ (hentries.2 m hm) _ hnode
  · rw [hnames]
    exact sound_of_resolveNode _ _ hdistinct _ hroot

/-! ## Visiting nodes -/

theorem visit_eq_flatMap (pending : List Node) : visit pending = pending.flatMap Node.preorder := by
  fun_induction visit pending with
  | case1 => rfl
  | case2 n rest ih =>
    rw [ih, List.flatMap_append, List.flatMap_cons, Node.preorder_eq n, List.cons_append]

theorem walk_eq_append (s : Schema) :
    s.walk = (s.definitions.map Prod.snd).flatMap Node.preorder ++ s.root.preorder := by
  rw [walk, visit_eq_flatMap, List.flatMap_append, List.flatMap_singleton]

namespace Node

theorem mem_preorder_self (n : Node) : n ∈ n.preorder := by
  rw [preorder_eq]
  exact List.mem_cons_self

theorem mem_preorderEntries {entries : List (String × Node)} {m : Node} :
    m ∈ preorderEntries entries ↔ ∃ e ∈ entries, m ∈ e.2.preorder := by
  simp only [preorderEntries_eq, List.mem_flatMap, List.mem_map, exists_exists_and_eq_and]

end Node

theorem mem_visit_of_mem {pending : List Node} (h : n ∈ pending) : n ∈ visit pending := by
  rw [visit_eq_flatMap]
  exact List.mem_flatMap.2 ⟨n, h, Node.mem_preorder_self n⟩

/-- With a node all nodes directly below it are visited. -/
theorem mem_visit_of_child {pending : List Node} (h : n ∈ visit pending) (hc : c ∈ n.children) :
    c ∈ visit pending := by
  fun_induction visit pending with
  | case1 => simp at h
  | case2 n' rest ih =>
    refine List.mem_cons_of_mem _ ?_
    rcases List.mem_cons.1 h with rfl | h
    · exact mem_visit_of_mem (List.mem_append_left _ hc)
    · exact ih h

theorem Node.mem_preorder_of_child {top : Node} (h : n ∈ top.preorder) (hc : c ∈ n.children) :
    c ∈ top.preorder := by
  rw [← List.flatMap_singleton (f := preorder), ← visit_eq_flatMap] at h ⊢
  exact mem_visit_of_child h hc

theorem Node.length_preorder_lt (hc : c ∈ n.children) : c.preorder.length < n.preorder.length := by
  rw [preorder_eq n, List.length_cons, Nat.lt_succ_iff]
  exact (List.sublist_flatten_of_mem (List.mem_map_of_mem hc)).length_le

theorem mem_walk_of_definition {e : String × Node} (h : e ∈ s.definitions) : e.2 ∈ s.walk :=
  mem_visit_of_mem (List.mem_append_left _ (List.mem_map_of_mem h))

theorem root_mem_walk (s : Schema) : s.root ∈ s.walk :=
  mem_visit_of_mem (List.mem_append_right _ List.mem_cons_self)

namespace Node

/-! ## Places of nodes -/

section

variable {names : List String} {p : Pointer} {n : Node}

/-- All nodes below a node are at places below its own. -/
theorem Sound.under (h : n.Sound names p) : ∀ m ∈ n.preorder, p.Under m.path := by
  induction h with
  | empty hpath | ref hpath _ | type hpath | enum hpath _ =>
    intro m hm
    rw [preorder, List.mem_singleton] at hm
    rw [hm, path, info, hpath]
    exact Pointer.under_refl _
  | elements hpath _ ih | values hpath _ ih =>
    intro m hm
    rw [preorder, List.mem_cons] at hm
    rcases hm with rfl | hm
    · rw [path, info, hpath]
      exact Pointer.under_refl _
    · exact (ih m hm).of_push
  | properties hpath _ _ _ ihRequired ihOptional =>
    intro m hm
    rw [preorder, List.mem_cons, List.mem_append, mem_preorderEntries, mem_preorderEntries] at hm
    rcases hm with rfl | ⟨e, he, hm⟩ | ⟨e, he, hm⟩
    · rw [path, info, hpath]
      exact Pointer.under_refl _
    · exact (ihRequired e he m hm).of_push
    · exact (ihOptional e he m hm).of_push
  | discriminator hpath _ _ _ ih =>
    intro m hm
    rw [preorder, List.mem_cons, mem_preorderEntries] at hm
    rcases hm with rfl | ⟨e, he, hm⟩
    · rw [path, info, hpath]
      exact Pointer.under_refl _
    · exact (ih e he m hm).of_push

/-- All nodes below a sound node are sound. -/
theorem Sound.of_mem_preorder (h : n.Sound names p) : ∀ m ∈ n.preorder, m.Sound names m.path := by
  induction h with
  | empty =>
    intro m hm
    rw [List.mem_singleton.1 hm]
    exact .empty rfl
  | ref _ htarget =>
    intro m hm
    rw [List.mem_singleton.1 hm]
    exact .ref rfl htarget
  | type =>
    intro m hm
    rw [List.mem_singleton.1 hm]
    exact .type rfl
  | enum _ hvalues =>
    intro m hm
    rw [List.mem_singleton.1 hm]
    exact .enum rfl hvalues
  | elements hpath hitem ih =>
    intro m hm
    rw [preorder, List.mem_cons] at hm
    rcases hm with rfl | hm
    · exact .elements rfl (by rwa [path, info, hpath])
    · exact ih m hm
  | values hpath hitem ih =>
    intro m hm
    rw [preorder, List.mem_cons] at hm
    rcases hm with rfl | hm
    · exact .values rfl (by rwa [path, info, hpath])
    · exact ih m hm
  | properties hpath hkeys hrequired hoptional ihRequired ihOptional =>
    intro m hm
    rw [preorder, List.mem_cons, List.mem_append, mem_preorderEntries, mem_preorderEntries] at hm
    rcases hm with rfl | ⟨e, he, hm⟩ | ⟨e, he, hm⟩
    · exact .properties rfl hkeys (by rwa [path, info, hpath]) (by rwa [path, info, hpath])
    · exact ihRequired e he m hm
    · exact ihOptional e he m hm
  | discriminator hpath hkeys hmapping hbranches ih =>
    intro m hm
    rw [preorder, List.mem_cons, mem_preorderEntries] at hm
    rcases hm with rfl | ⟨e, he, hm⟩
    · exact .discriminator rfl hkeys (by rwa [path, info, hpath]) hbranches
    · exact ih e he m hm

theorem under_entries {keyword : String} {entries : List (String × Node)}
    (hsound : ∀ e ∈ entries, e.2.Sound names (p.push [keyword, e.1])) :
    ∀ m ∈ preorderEntries entries, (p.push [keyword]).Under m.path := by
  intro m hm
  obtain ⟨e, he, hm⟩ := mem_preorderEntries.1 hm
  exact ((hsound e he).under m hm).first_key

/-- The nodes of entries with different keys are at different places. -/
theorem nodup_paths_entries {keyword : String} {entries : List (String × Node)}
    (hkeys : (entries.map Prod.fst).Nodup)
    (hsound : ∀ e ∈ entries, e.2.Sound names (p.push [keyword, e.1]))
    (hnodup : ∀ e ∈ entries, (e.2.preorder.map path).Nodup) :
    ((preorderEntries entries).map path).Nodup := by
  induction entries with
  | nil => simp [preorderEntries]
  | cons e rest ih =>
    obtain ⟨key, n⟩ := e
    rw [List.map_cons, List.nodup_cons] at hkeys
    rw [List.forall_mem_cons] at hsound hnodup
    rw [preorderEntries, List.map_append, List.nodup_append']
    refine ⟨hnodup.1, ih hkeys.2 hsound.2 hnodup.2, ?_⟩
    intro q hq hq'
    obtain ⟨m, hm, rfl⟩ := List.mem_map.1 hq
    obtain ⟨m', hm', heq⟩ := List.mem_map.1 hq'
    obtain ⟨e', he', hm'⟩ := mem_preorderEntries.1 hm'
    have hunder : ((p.push [keyword]).push [key]).Under m.path := by
      rw [Pointer.push_push]
      exact hsound.1.under m hm
    have hunder' : ((p.push [keyword]).push [e'.1]).Under m.path := by
      rw [Pointer.push_push, ← heq]
      exact (hsound.2 e' he').under m' hm'
    exact hkeys.1 (List.mem_map.2 ⟨e', he', (hunder.key_eq hunder').symm⟩)

/-- A node and all nodes below it are at different places. -/
theorem Sound.nodup_paths (h : n.Sound names p) : (n.preorder.map path).Nodup := by
  induction h with
  | empty | ref | type | enum => simp [preorder]
  | elements hpath hitem ih | values hpath hitem ih =>
    rw [preorder, List.map_cons, List.nodup_cons]
    refine ⟨fun hmem => ?_, ih⟩
    obtain ⟨m, hm, heq⟩ := List.mem_map.1 hmem
    exact (hitem.under m hm).ne_of_push (heq.trans hpath)
  | @properties p info required optional additional hpath hkeys hrequired hoptional ihReq ihOpt =>
    rw [List.map_append, List.nodup_append'] at hkeys
    have hunderReq := under_entries hrequired
    have hunderOpt := under_entries hoptional
    rw [preorder, List.map_cons, List.map_append, List.nodup_cons, List.mem_append,
      List.nodup_append']
    refine ⟨?_, nodup_paths_entries hkeys.1 hrequired ihReq,
      nodup_paths_entries hkeys.2.1 hoptional ihOpt, ?_⟩
    · rintro (hmem | hmem)
      · obtain ⟨m, hm, heq⟩ := List.mem_map.1 hmem
        exact (hunderReq m hm).ne_of_push (heq.trans hpath)
      · obtain ⟨m, hm, heq⟩ := List.mem_map.1 hmem
        exact (hunderOpt m hm).ne_of_push (heq.trans hpath)
    · intro q hq hq'
      obtain ⟨m, hm, rfl⟩ := List.mem_map.1 hq
      obtain ⟨m', hm', heq⟩ := List.mem_map.1 hq'
      have hunder' := heq ▸ hunderOpt m' hm'
      exact absurd ((hunderReq m hm).key_eq hunder') (by decide)
  | @discriminator p info tag mapping hpath hkeys hmapping hbranches ih =>
    rw [preorder, List.map_cons, List.nodup_cons]
    refine ⟨fun hmem => ?_, nodup_paths_entries hkeys hmapping ih⟩
    obtain ⟨m, hm, heq⟩ := List.mem_map.1 hmem
    exact (under_entries hmapping m hm).ne_of_push (heq.trans hpath)

/-- The nodes below a node are reached by a keyword of some form. -/
theorem Sound.under_keyword (h : n.Sound names p) {m : Node} (hm : m ∈ n.preorder) :
    m = n ∨ ∃ keyword ∈ ["elements", "properties", "optionalProperties", "values", "mapping"],
      (p.push [keyword]).Under m.path := by
  cases h with
  | empty | ref | type | enum => exact .inl (List.mem_singleton.1 hm)
  | elements _ hitem =>
    rcases List.mem_cons.1 hm with rfl | hm
    · exact .inl rfl
    · exact .inr ⟨"elements", by simp, hitem.under m hm⟩
  | values _ hitem =>
    rcases List.mem_cons.1 hm with rfl | hm
    · exact .inl rfl
    · exact .inr ⟨"values", by simp, hitem.under m hm⟩
  | properties _ _ hrequired hoptional =>
    rw [preorder, List.mem_cons, List.mem_append] at hm
    rcases hm with rfl | hm | hm
    · exact .inl rfl
    · exact .inr ⟨"properties", by simp, under_entries hrequired m hm⟩
    · exact .inr ⟨"optionalProperties", by simp, under_entries hoptional m hm⟩
  | discriminator _ _ hmapping _ =>
    rcases List.mem_cons.1 hm with rfl | hm
    · exact .inl rfl
    · exact .inr ⟨"mapping", by simp, under_entries hmapping m hm⟩

end

theorem sublist_flatMap_preorder (ns : List Node) : ns.Sublist (ns.flatMap preorder) := by
  induction ns with
  | nil => exact .slnil
  | cons n ns ih =>
    rw [List.flatMap_cons, preorder_eq, List.cons_append]
    exact .cons_cons _ (ih.trans (List.sublist_append_right _ _))

/-- No nested node is at the place of a node that it is visited from. -/
theorem path_ne_of_nested {tops : List Node} (h : ((tops.flatMap preorder).map path).Nodup)
    {top top' : Node} (htop : top ∈ tops) (htop' : top' ∈ tops) {m : Node}
    (hm : m ∈ top'.children.flatMap preorder) : m.path ≠ top.path := by
  induction tops with
  | nil => simp at htop
  | cons n rest ih =>
    rw [List.flatMap_cons, preorder_eq n, List.cons_append, List.map_cons, List.nodup_cons,
      List.map_append, List.nodup_append', List.mem_append, not_or] at h
    obtain ⟨⟨hself, hrest⟩, -, hnodup, hdisjoint⟩ := h
    rcases List.mem_cons.1 htop with rfl | hin <;> rcases List.mem_cons.1 htop' with rfl | hin'
    · exact fun heq => hself (heq ▸ List.mem_map_of_mem hm)
    · refine fun heq => hrest (heq ▸ List.mem_map_of_mem (List.mem_flatMap.2 ⟨top', hin', ?_⟩))
      rw [preorder_eq]
      exact List.mem_cons_of_mem _ hm
    · refine fun heq => hdisjoint (List.mem_map_of_mem hm) (heq ▸ List.mem_map_of_mem ?_)
      exact List.mem_flatMap.2 ⟨top, hin, mem_preorder_self top⟩
    · exact ih hnodup hin hin'

end Node

theorem Sound.of_mem_walk (h : s.Sound) (hn : n ∈ s.walk) : n.Sound s.names n.path := by
  rw [walk_eq_append, List.mem_append, List.mem_flatMap] at hn
  rcases hn with ⟨body, hbody, hn⟩ | hn
  · obtain ⟨e, he, rfl⟩ := List.mem_map.1 hbody
    exact (h.definitions e he).of_mem_preorder n hn
  · exact h.root.of_mem_preorder n hn

/-- All nodes of a schema are at different places. -/
theorem Sound.nodup_walk_paths (h : s.Sound) : (s.walk.map Node.path).Nodup := by
  have hdefinitions : ((Node.preorderEntries s.definitions).map Node.path).Nodup :=
    Node.nodup_paths_entries h.nodup_names h.definitions fun e he =>
      (h.definitions e he).nodup_paths
  rw [walk_eq_append, ← Node.preorderEntries_eq, List.map_append, List.nodup_append']
  refine ⟨hdefinitions, h.root.nodup_paths, ?_⟩
  intro q hq hq'
  obtain ⟨m, hm, rfl⟩ := List.mem_map.1 hq
  obtain ⟨m', hm', heq⟩ := List.mem_map.1 hq'
  have hunder := Node.under_entries h.definitions m hm
  rw [← heq] at hunder
  rcases h.root.under_keyword hm' with rfl | ⟨keyword, hkeyword, hunder'⟩
  · exact hunder.ne_of_push h.root.path_eq
  · rw [hunder'.key_eq hunder] at hkeyword
    exact absurd hkeyword (by decide)

end Typegen.Schema
