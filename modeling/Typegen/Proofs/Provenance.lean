import Typegen.Proofs.Resolved

/-!
# Where nodes come from

Every node of a schema was built from one object of the document.  `Node.sources` pairs the nodes
below a node with the values they were built from, and `Schema.BuiltFrom` follows these pairs down
from the definitions and the root, without looking at any place.  The place that a node keeps is a
true one: the text of the place, read as a pointer into the document, leads to the value that the
node was built from, and no two nodes have the same text.
-/

namespace Typegen

/-! ## Following pointers -/

namespace Pointer

theorem eval?_append (keys more : List String) (v : Json) :
    eval? (keys ++ more) v = (eval? keys v).bind (eval? more) := by
  induction keys generalizing v with
  | nil => rfl
  | cons key keys ih =>
    cases v with
    | object members =>
      rw [List.cons_append, eval?, eval?]
      cases Json.get? members key with
      | none => rfl
      | some w => exact ih w
    | _ => rfl

theorem eval?_key {members : List (String × Json)} {key : String} {v : Json}
    (h : Json.get? members key = some v) : eval? [key] (.object members) = some v := by
  rw [eval?, h]
  rfl

/-- A keyword and then a key of the object under it. -/
theorem eval?_entry {members entries : List (String × Json)} {keyword : String}
    {e : String × Json} (h : Json.get? members keyword = some (.object entries))
    (hkeys : (Json.keys entries).Nodup) (he : e ∈ entries) :
    eval? [keyword, e.1] (.object members) = some e.2 := by
  rw [eval?, h]
  exact eval?_key (lookup_of_mem hkeys he)

end Pointer

namespace Schema

/-! ## Nodes and values -/

/-- Entries of an object and the entries of a node that were built from them, as values and
nodes. -/
def pairUp (entries : List (String × Json)) (nodes : List (String × Node)) : List (Json × Node) :=
  (entries.zip nodes).map fun p => (p.1.2, p.2.2)

/-- The nodes directly below a node that was built from the given members, each with the value it
was built from. -/
def Node.sources (members : List (String × Json)) : Node → List (Json × Node)
  | .elements _ item => [(valueAt members "elements", item)]
  | .properties _ required optional _ =>
    pairUp (membersAt members "properties") required ++
      pairUp (membersAt members "optionalProperties") optional
  | .values _ item => [(valueAt members "values", item)]
  | .discriminator _ _ mapping => pairUp (membersAt members "mapping") mapping
  | _ => []

/-- Within a value and the node that was built from it, a node was built from a value. -/
inductive Node.BuiltFrom : Json → Node → Json → Node → Prop
  | self (raw : Json) (node : Node) : BuiltFrom raw node raw node
  | down {members : List (String × Json)} {node child n : Node} {raw v : Json}
      (hchild : (raw, child) ∈ node.sources members) (hbelow : BuiltFrom raw child v n) :
      BuiltFrom (.object members) node v n

/-- The definitions and the root of a schema, each with the value it was built from. -/
def sources (s : Schema) : Json → List (Json × Node)
  | .object members =>
    pairUp (membersAt members "definitions") s.definitions ++ [(.object members, s.root)]
  | _ => []

/-- A node of the schema of a document was built from a value inside the document. -/
def BuiltFrom (s : Schema) (document v : Json) (n : Node) : Prop :=
  ∃ top ∈ s.sources document, Node.BuiltFrom top.1 top.2 v n

theorem map_snd_pairUp {R : String × Json → String × Node → Prop} {entries : List (String × Json)}
    {nodes : List (String × Node)} (h : List.Forall₂ R entries nodes) :
    (pairUp entries nodes).map Prod.snd = nodes.map Prod.snd := by
  induction h with
  | nil => rfl
  | cons _ _ ih => simpa [pairUp] using ih

theorem exists_of_mem_pairUp {R : String × Json → String × Node → Prop}
    {entries : List (String × Json)} {nodes : List (String × Node)}
    (h : List.Forall₂ R entries nodes) {raw : Json} {n : Node}
    (hmem : (raw, n) ∈ pairUp entries nodes) :
    ∃ e ∈ entries, ∃ m ∈ nodes, R e m ∧ e.2 = raw ∧ m.2 = n := by
  obtain ⟨⟨e, m⟩, hzip, heq⟩ := List.mem_map.1 hmem
  obtain ⟨rfl, rfl⟩ := Prod.mk.inj heq
  exact ⟨e, (List.of_mem_zip hzip).1, m, (List.of_mem_zip hzip).2,
    (List.forall₂_iff_zip.1 h).2 hzip, rfl, rfl⟩

/-! ## One step down -/

section

variable {names : List String}

/-- A node was read from a value at a place that the given keys lead to from another value. -/
structure ReadAt (names : List String) (start : Pointer) (raw : Json) (keys : List String)
    (v : Json) (n : Node) : Prop where
  distinct : v.Distinct
  read : ∃ site, site.path = start.push keys ∧ resolveNode names site v = .ok n
  eval : Pointer.eval? keys raw = some v

namespace ReadAt

variable {start : Pointer} {raw v w : Json} {keys more : List String} {n m : Node}

theorem path_eq (h : ReadAt names start raw keys v n) : n.path = start.push keys := by
  obtain ⟨site, hsite, hread⟩ := h.read
  rw [← hsite]
  exact (sound_of_resolveNode site v h.distinct n hread).path_eq

theorem trans (h : ReadAt names start raw keys v n) (h' : ReadAt names n.path v more w m) :
    ReadAt names start raw (keys ++ more) w m := by
  obtain ⟨site, hsite, hread⟩ := h'.read
  refine ⟨h'.distinct, ⟨site, ?_, hread⟩, ?_⟩
  · rw [hsite, h.path_eq, Pointer.push_push]
  · rw [Pointer.eval?_append, h.eval]
    exact h'.eval

end ReadAt

variable {site : Site} {members : List (String × Json)}

/-- The schema under a keyword. -/
theorem readAt_item (hdistinct : (Json.object members).Distinct) {form : Form} {keyword : String}
    (hsel : Selects members form) (hkeyword : ∀ key, Selector form key → key = keyword)
    {item : Node}
    (hitem : resolveNode names ⟨site.path.push [keyword], none, false⟩
      (valueAt members keyword) = .ok item) :
    ReadAt names site.path (.object members) [keyword] (valueAt members keyword) item := by
  obtain ⟨key, hkey, hs⟩ := hsel
  obtain rfl := hkeyword key hs
  obtain ⟨v, hv⟩ := Json.mem_keys_iff.1 hkey
  refine ⟨distinct_valueAt hdistinct key, ⟨_, rfl, hitem⟩, ?_⟩
  rw [valueAt_of_get? hv]
  exact Pointer.eval?_key hv

variable {raw : Json} {node n : Node}

/-- A schema in the object under a keyword. -/
theorem readAt_entry (hdistinct : (Json.object members).Distinct) {keyword : String}
    {nodes : List (String × Node)} (hnodes : List.Forall₂ (fun e m => resolveNode names
      ⟨(site.path.push [keyword]).push [e.1], none, false⟩ e.2 = .ok m.2)
      (membersAt members keyword) nodes)
    (hmem : (raw, n) ∈ pairUp (membersAt members keyword) nodes) :
    ∃ key, ReadAt names site.path (.object members) [keyword, key] raw n := by
  obtain ⟨e, he, m, -, hread, rfl, rfl⟩ := exists_of_mem_pairUp hnodes hmem
  obtain ⟨entries, hget, hentry⟩ := mem_membersAt he
  obtain ⟨hkeys, hvalues⟩ := Json.distinct_object_iff.1 (hdistinct.of_get? hget)
  refine ⟨e.1, hvalues e hentry, ⟨_, ?_, hread⟩, Pointer.eval?_entry hget hkeys hentry⟩
  rw [Pointer.push_push]
  rfl

theorem readAt_of_source (h : resolveNode names site (.object members) = .ok node)
    (hdistinct : (Json.object members).Distinct) {child : Node}
    (hchild : (raw, child) ∈ node.sources members) :
    ∃ keys, ReadAt names site.path (.object members) keys raw child := by
  obtain ⟨info, head, hread, hnode⟩ := resolveNode_object_eq_ok.1 h
  cases hnode with
  | empty | ref | type | enum => simp [Node.sources] at hchild
  | elements hitem | values hitem =>
    obtain ⟨rfl, rfl⟩ := Prod.mk.inj (List.mem_singleton.1 hchild)
    have hsel := selects_of_form hread (by simp [Head.form])
    exact ⟨_, readAt_item hdistinct hsel (fun key hkey => by cases hkey; rfl) hitem⟩
  | properties additional hrequired hoptional =>
    rcases List.mem_append.1 hchild with hmem | hmem
    · obtain ⟨key, hkey⟩ := readAt_entry hdistinct
        ((resolveEntries_eq_ok.1 hrequired).imp fun _ _ hm => hm.2) hmem
      exact ⟨_, hkey⟩
    · obtain ⟨key, hkey⟩ := readAt_entry hdistinct
        ((resolveEntries_eq_ok.1 hoptional).imp fun _ _ hm => hm.2) hmem
      exact ⟨_, hkey⟩
  | discriminator tag hmapping =>
    obtain ⟨key, hkey⟩ := readAt_entry hdistinct
      ((resolveBranches_eq_ok.1 hmapping).imp fun _ _ hm => hm.2.1) hchild
    exact ⟨_, hkey⟩

theorem map_snd_sources (h : resolveNode names site (.object members) = .ok node) :
    (node.sources members).map Prod.snd = node.children := by
  obtain ⟨info, head, -, hnode⟩ := resolveNode_object_eq_ok.1 h
  cases hnode with
  | empty | ref | type | enum | elements | values => rfl
  | properties additional hrequired hoptional =>
    rw [Node.sources, List.map_append, map_snd_pairUp (resolveEntries_eq_ok.1 hrequired),
      map_snd_pairUp (resolveEntries_eq_ok.1 hoptional), Node.children]
  | discriminator tag hmapping =>
    rw [Node.sources, map_snd_pairUp (resolveBranches_eq_ok.1 hmapping), Node.children]

/-! ## All the way down -/

theorem Node.BuiltFrom.readAt {v : Json} (h : Node.BuiltFrom raw node v n)
    (hread : resolveNode names site raw = .ok node) (hdistinct : raw.Distinct) :
    ∃ keys, ReadAt names site.path raw keys v n := by
  induction h generalizing site with
  | self raw node => exact ⟨[], hdistinct, ⟨site, by simp [Pointer.push], hread⟩, rfl⟩
  | down hchild _ ih =>
    obtain ⟨keys, hstep⟩ := readAt_of_source hread hdistinct hchild
    obtain ⟨site', hsite', hread'⟩ := hstep.read
    obtain ⟨more, hrest⟩ := ih hread' hstep.distinct
    refine ⟨keys ++ more, hstep.trans ?_⟩
    rwa [hstep.path_eq, ← hsite']

/-- Every node below a node was built from something. -/
theorem exists_builtFrom (hread : resolveNode names site raw = .ok node) (hdistinct : raw.Distinct)
    (hn : n ∈ node.preorder) : ∃ v, Node.BuiltFrom raw node v n := by
  induction hlength : node.preorder.length using Nat.strongRecOn
    generalizing raw node site with
  | ind k ih =>
    obtain ⟨members, rfl⟩ := resolveNode_eq_ok_object hread
    rw [Node.preorder_eq, List.mem_cons] at hn
    rcases hn with rfl | hn
    · exact ⟨_, .self _ _⟩
    · obtain ⟨child, hchild, hn⟩ := List.mem_flatMap.1 hn
      have hshorter : child.preorder.length < k := hlength ▸ Node.length_preorder_lt hchild
      rw [← map_snd_sources hread] at hchild
      obtain ⟨⟨raw, _⟩, hsource, rfl⟩ := List.mem_map.1 hchild
      obtain ⟨keys, hstep⟩ := readAt_of_source hread hdistinct hsource
      obtain ⟨site', -, hread'⟩ := hstep.read
      obtain ⟨v, hv⟩ := ih _ hshorter hread' hstep.distinct hn rfl
      exact ⟨v, .down hsource hv⟩

end

/-! ## Documents -/

section

variable {document : Json} {schema : Schema}

/-- The definitions and the root were read from their values in the document. -/
theorem readAt_of_top (hdistinct : document.Distinct) (h : resolve document = .ok schema)
    {raw : Json} {node : Node} (htop : (raw, node) ∈ schema.sources document) :
    ∃ keys, ReadAt schema.names .root document keys raw node := by
  obtain ⟨members, rfl⟩ := resolve_eq_ok_object h
  obtain ⟨table, htable, hdefinitions, hroot⟩ := resolve_object_eq_ok.1 h
  have hentries := resolveDefinitions_eq_ok.1 hdefinitions
  have hnames : schema.names = Json.keys table := map_fst_of_forall₂ hentries
  rw [hnames]
  rcases List.mem_append.1 htop with hmem | hmem
  · rw [membersAt_of_readObject htable] at hmem
    obtain ⟨e, he, m, -, ⟨-, hread⟩, rfl, rfl⟩ := exists_of_mem_pairUp hentries hmem
    rw [← membersAt_of_readObject htable] at he
    obtain ⟨entries, hget, hentry⟩ := mem_membersAt he
    obtain ⟨hkeys, hvalues⟩ := Json.distinct_object_iff.1 (hdistinct.of_get? hget)
    exact ⟨["definitions", e.1], hvalues e hentry, ⟨_, rfl, hread⟩,
      Pointer.eval?_entry hget hkeys hentry⟩
  · obtain ⟨rfl, rfl⟩ := Prod.mk.inj (List.mem_singleton.1 hmem)
    exact ⟨[], hdistinct, ⟨_, rfl, hroot⟩, rfl⟩

theorem map_snd_sources_document (h : resolve document = .ok schema) :
    (schema.sources document).map Prod.snd = schema.definitions.map Prod.snd ++ [schema.root] := by
  obtain ⟨members, rfl⟩ := resolve_eq_ok_object h
  obtain ⟨table, htable, hdefinitions, -⟩ := resolve_object_eq_ok.1 h
  rw [sources, membersAt_of_readObject htable, List.map_append,
    map_snd_pairUp (resolveDefinitions_eq_ok.1 hdefinitions)]
  rfl

/-- A node was read from the value that it was built from, and its place leads there. -/
theorem BuiltFrom.readAt (hdistinct : document.Distinct) (h : resolve document = .ok schema)
    {v : Json} {n : Node} (hbuilt : schema.BuiltFrom document v n) :
    ReadAt schema.names .root document n.path.segments v n := by
  obtain ⟨⟨raw, node⟩, htop, hbelow⟩ := hbuilt
  obtain ⟨keys, hread⟩ := readAt_of_top hdistinct h htop
  obtain ⟨site, hsite, hnode⟩ := hread.read
  obtain ⟨more, hmore⟩ := hbelow.readAt hnode hread.distinct
  rw [hsite, ← hread.path_eq] at hmore
  have hall := hread.trans hmore
  rw [hall.path_eq]
  exact hall

theorem exists_builtFrom_of_mem_walk (hdistinct : document.Distinct)
    (h : resolve document = .ok schema) {n : Node} (hn : n ∈ schema.walk) :
    ∃ v, schema.BuiltFrom document v n := by
  rw [walk, visit_eq_flatMap, ← map_snd_sources_document h, List.mem_flatMap] at hn
  obtain ⟨node, hnode, hn⟩ := hn
  obtain ⟨⟨raw, _⟩, htop, rfl⟩ := List.mem_map.1 hnode
  obtain ⟨keys, hread⟩ := readAt_of_top hdistinct h htop
  obtain ⟨site, -, hnode⟩ := hread.read
  obtain ⟨v, hv⟩ := exists_builtFrom hnode hread.distinct hn
  exact ⟨v, _, htop, hv⟩

end

/-- The texts of the places of all nodes are different.  Each of them, read as a pointer into the
document, leads to an object, which is the only value that the node was built from: the node is what
the object is resolved to at that place. -/
theorem places_of_resolve {document : Json} {schema : Schema} (hdistinct : document.Distinct)
    (hresolve : resolve document = .ok schema) :
    (schema.walk.map fun n => n.path.text).Nodup ∧
      ∀ n ∈ schema.walk, ∃ members,
        Pointer.eval? (Pointer.read n.path.text) document = some (.object members) ∧
        (∀ v, schema.BuiltFrom document v n ↔ v = .object members) ∧
        ∃ site, site.path = n.path ∧
          resolveNode schema.names site (.object members) = .ok n := by
  have hpaths := (sound_of_resolve hdistinct hresolve).nodup_walk_paths
  refine ⟨?_, fun n hn => ?_⟩
  · have htexts := hpaths.map Pointer.text_injective
    rwa [List.map_map] at htexts
  · obtain ⟨v, hv⟩ := exists_builtFrom_of_mem_walk hdistinct hresolve hn
    have hread := hv.readAt hdistinct hresolve
    obtain ⟨site, hsite, hnode⟩ := hread.read
    obtain ⟨members, rfl⟩ := resolveNode_eq_ok_object hnode
    rw [Pointer.read_text]
    refine ⟨members, hread.eval, fun w => ⟨fun hw => ?_, ?_⟩, site, ?_, hnode⟩
    · have hread' := hw.readAt hdistinct hresolve
      exact Option.some.inj (hread'.eval.symm.trans hread.eval)
    · rintro rfl
      exact hv
    · rw [hsite, ← hread.path_eq]

/-- A document whose keys look like parts of pointers. -/
def knottyDocument : Json := .object [
  ("definitions", .object [("/", .object [("type", .string "int8")])]),
  ("properties", .object [
    ("", .object [("elements", .object [("ref", .string "/")])]),
    ("~1", .object []),
    ("properties", .object [("optionalProperties", .object [("a/~0", .object [])])])])]

/-- The schema of the document. -/
def knottySchema : Schema where
  definitions := [("/", .type ⟨⟨["definitions", "/"]⟩, false, some "/", []⟩ .int8)]
  root := .properties ⟨⟨[]⟩, false, none, []⟩ [
    ("", .elements ⟨⟨["properties", ""]⟩, false, none, []⟩
      (.ref ⟨⟨["properties", "", "elements"]⟩, false, none, []⟩ "/")),
    ("~1", .empty ⟨⟨["properties", "~1"]⟩, false, none, []⟩),
    ("properties", .properties ⟨⟨["properties", "properties"]⟩, false, none, []⟩ [] [
      ("a/~0", .empty
        ⟨⟨["properties", "properties", "optionalProperties", "a/~0"]⟩, false, none, []⟩)] false)]
    [] false

theorem places_knotty :
    knottyDocument.Distinct ∧ resolve knottyDocument = .ok knottySchema ∧
      (knottySchema.walk.map fun n => n.path.text) =
        ["#/definitions/~1", "#", "#/properties/", "#/properties//elements", "#/properties/~01",
          "#/properties/properties", "#/properties/properties/optionalProperties/a~1~00"] ∧
      (knottySchema.walk.map fun n => n.path.text).Nodup ∧
      ∀ n ∈ knottySchema.walk, ∃ members,
        Pointer.eval? (Pointer.read n.path.text) knottyDocument = some (.object members) := by
  have hdistinct : knottyDocument.Distinct := by simp [knottyDocument, Json.keys]
  have hresolve : resolve knottyDocument = .ok knottySchema := by with_unfolding_all rfl
  obtain ⟨hnodup, hplaces⟩ := places_of_resolve hdistinct hresolve
  refine ⟨hdistinct, hresolve, by with_unfolding_all rfl, hnodup, fun n hn => ?_⟩
  obtain ⟨members, heval, -⟩ := hplaces n hn
  exact ⟨members, heval⟩

end Schema

end Typegen
