import Typegen.Proofs.Named
import Typegen.Proofs.Resolved

/-!
# Names of types

The identifiers that share the scope of types: those of the definitions and the root, of the nested
types and, where they are named like types, of the members of enumerations.  They are all different
except that a definition or root which declares a type shares its identifier with that type, and
none is reserved or too long.
-/

namespace Typegen.Naming

open Schema (Node)
open Namespace (Hands)

variable {r : Rules}

/-! ## Lists of bodies -/

section Bodies

variable {types left : Namespace} {entries : List (String × Node)} {ids : List (String × String)}
  {nodes : List (Pointer × Names)}

theorem nameDefinitions_cons {name : String} {body : Node}
    (h : nameDefinitions r types ((name, body) :: entries) = .ok (ids, nodes, left)) :
    ∃ id own types' ids' others, nameBody r types name body = .ok (id, own, types') ∧
      nameDefinitions r types' entries = .ok (ids', others, left) ∧
      ids = (name, id) :: ids' ∧ nodes = own ++ others := by
  simp only [nameDefinitions, bind_eq_ok, pure_eq_ok, Prod.mk.injEq] at h
  obtain ⟨⟨id, own, types'⟩, hbody, ⟨ids', others, left'⟩, hrest, rfl, rfl, rfl⟩ := h
  exact ⟨id, own, types', ids', others, hbody, hrest, rfl, rfl⟩

theorem map_fst_of_nameDefinitions
    (h : nameDefinitions r types entries = .ok (ids, nodes, left)) :
    ids.map Prod.fst = entries.map Prod.fst ∧ nodes.map Prod.fst =
      (((entries.map Prod.snd).flatMap Node.preorder).filter Node.isNamed).map Node.path := by
  induction entries generalizing types ids nodes with
  | nil =>
    rw [nameDefinitions, Except.ok.injEq, Prod.mk.injEq, Prod.mk.injEq] at h
    obtain ⟨rfl, rfl, -⟩ := h
    exact ⟨rfl, rfl⟩
  | cons e entries ih =>
    obtain ⟨id, own, types', ids', others, hbody, hrest, rfl, rfl⟩ := nameDefinitions_cons h
    obtain ⟨top, nested, rfl, hnamed, -, hpaths, -⟩ := nameBody_spec hbody
    obtain ⟨hids, hothers⟩ := ih hrest
    refine ⟨by rw [List.map_cons, List.map_cons, hids], ?_⟩
    rw [List.map_append, List.map_append, hpaths, hothers, List.map_cons, List.flatMap_cons,
      List.filter_append, List.map_append, Node.preorder_eq e.2, List.filter_cons, ← hnamed]
    cases top <;> simp

theorem covers_of_nameDefinitions
    (h : nameDefinitions r types entries = .ok (ids, nodes, left)) :
    ∀ m ∈ (entries.map Prod.snd).flatMap Node.preorder, Covers nodes m := by
  induction entries generalizing types ids nodes with
  | nil => simp
  | cons e entries ih =>
    obtain ⟨id, own, types', ids', others, hbody, hrest, rfl, rfl⟩ := nameDefinitions_cons h
    intro m hm
    rw [List.map_cons, List.flatMap_cons, List.mem_append] at hm
    rcases hm with hm | hm
    · exact (covers_of_nameBody hbody m hm).mono (List.subset_append_left _ _)
    · exact (ih hrest m hm).mono (List.subset_append_right _ _)

/-- A body that declares a type declares it under the identifier of its definition. -/
theorem own_of_nameDefinitions (h : nameDefinitions r types entries = .ok (ids, nodes, left)) :
    List.Forall₂ (fun e i => i.1 = e.1 ∧ (e.2.isNamed = true →
      ∃ names, (e.2.path, names) ∈ nodes ∧ names.type = i.2)) entries ids := by
  induction entries generalizing types ids nodes with
  | nil =>
    rw [nameDefinitions, Except.ok.injEq, Prod.mk.injEq] at h
    rw [← h.1]
    exact .nil
  | cons e entries ih =>
    obtain ⟨id, own, types', ids', others, hbody, hrest, rfl, rfl⟩ := nameDefinitions_cons h
    obtain ⟨top, nested, rfl, hnamed, htype, -, -⟩ := nameBody_spec hbody
    refine .cons ⟨rfl, fun hbodyNamed => ?_⟩ ((ih hrest).imp fun e' i hi => ⟨hi.1, fun he' => ?_⟩)
    · rw [hbodyNamed, Option.isSome_iff_exists] at hnamed
      obtain ⟨names, rfl⟩ := hnamed
      exact ⟨names, by simp, htype names rfl⟩
    · obtain ⟨names, hmem, heq⟩ := hi.2 he'
      exact ⟨names, List.mem_append_right _ hmem, heq⟩

/-- The identifiers of an entry come with its type in front of its members. -/
theorem perm_scopeIds (nodes : List (Pointer × Names)) :
    (nodes.flatMap r.scopeIds).Perm
      (nodes.map (fun e => e.2.type) ++ nodes.flatMap fun e => r.memberIds e.2) := by
  rw [List.map_eq_flatMap]
  exact (List.flatMap_append_perm nodes (fun e => [e.2.type]) fun e => r.memberIds e.2).symm

/-- The identifiers of the bodies that declare no type of their own. -/
def aliasIds (bodies : List Node) (ids : List String) : List String :=
  ((bodies.zip ids).filter fun b => !b.1.isNamed).map Prod.snd

/-- All identifiers of a list of bodies come out of one run of claims, in some order: those of the
definitions, of the types that are nested in their bodies and of members; or, what is the same,
those of all types, of the definitions that are no types and of members. -/
theorem hands_of_nameDefinitions {tops : List Pointer}
    (h : nameDefinitions r types entries = .ok (ids, nodes, left))
    (htops : ∀ e ∈ entries, e.2.path ∈ tops)
    (hnested : ∀ e ∈ entries, ∀ m ∈ e.2.children.flatMap Node.preorder, m.path ∉ tops) :
    ∃ all, Hands types all left ∧
      all.Perm (ids.map Prod.snd ++
        ((nodes.filter fun e => e.1 ∉ tops).map (fun e => e.2.type) ++
          nodes.flatMap fun e => r.memberIds e.2)) ∧
      all.Perm (nodes.map (fun e => e.2.type) ++
        (aliasIds (entries.map Prod.snd) (ids.map Prod.snd) ++
          nodes.flatMap fun e => r.memberIds e.2)) := by
  induction entries generalizing types ids nodes with
  | nil =>
    rw [nameDefinitions, Except.ok.injEq, Prod.mk.injEq, Prod.mk.injEq] at h
    obtain ⟨rfl, rfl, rfl⟩ := h
    exact ⟨[], .nil _, .nil, .nil⟩
  | cons e entries ih =>
    rw [List.forall_mem_cons] at htops hnested
    obtain ⟨id, own, types', ids', others, hbody, hrest, rfl, rfl⟩ := nameDefinitions_cons h
    obtain ⟨top, nested, rfl, hnamed, htype, hpaths, hhands⟩ := nameBody_spec hbody
    obtain ⟨all, hall, hperm, hperm'⟩ := ih hrest htops.2 hnested.2
    have htop : ((top.map (e.2.path, ·)).toList.filter fun e => e.1 ∉ tops) = [] := by
      cases top <;> simp [htops.1]
    have hkeep : (nested.filter fun e => e.1 ∉ tops) = nested := by
      rw [List.filter_eq_self]
      intro e' he'
      have : e'.1 ∈ nested.map Prod.fst := List.mem_map_of_mem he'
      rw [hpaths] at this
      obtain ⟨m, hm, heq⟩ := List.mem_map.1 this
      simpa [← heq] using hnested.1 m (List.mem_of_mem_filter hm)
    have hmembers : ((top.map (e.2.path, ·)).toList.flatMap fun e => r.memberIds e.2) =
        top.toList.flatMap r.memberIds := by
      cases top <;> rfl
    have hown : ((top.map (e.2.path, ·)).toList.map fun e => e.2.type) ++
        aliasIds [e.2] [id] = [id] := by
      cases top with
      | none => simp [aliasIds, ← hnamed]
      | some names => simp [aliasIds, ← hnamed, htype names rfl]
    have halias : aliasIds (((e :: entries)).map Prod.snd) (((e.1, id) :: ids').map Prod.snd) =
        aliasIds [e.2] [id] ++ aliasIds (entries.map Prod.snd) (ids'.map Prod.snd) := by
      simp only [aliasIds, List.map_cons, List.zip_cons_cons, List.filter_cons, List.zip_nil_left,
        List.filter_nil]
      split <;> simp
    refine ⟨_, hhands.append hall, ?_, ?_⟩
    · rw [List.filter_append, List.filter_append, htop, hkeep, List.flatMap_append,
        List.flatMap_append, hmembers, List.perm_iff_count]
      intro x
      have hscope := (perm_scopeIds (r := r) nested).count_eq x
      have hrest := hperm.count_eq x
      simp only [List.count_append, List.count_cons, List.map_append, List.map_cons,
        List.nil_append] at hscope hrest ⊢
      omega
    · rw [halias, List.flatMap_append, List.flatMap_append, hmembers, List.perm_iff_count]
      intro x
      have hscope := (perm_scopeIds (r := r) nested).count_eq x
      have hrest := hperm'.count_eq x
      have hid := congrArg (List.count x) hown
      simp only [List.count_append, List.count_cons, List.count_nil, List.map_append]
        at hscope hrest hid ⊢
      omega

theorem nameDefinitions_append {more : List (String × Node)} {moreIds : List (String × String)}
    {moreNodes : List (Pointer × Names)} {types' : Namespace}
    (h : nameDefinitions r types entries = .ok (ids, nodes, types'))
    (hmore : nameDefinitions r types' more = .ok (moreIds, moreNodes, left)) :
    nameDefinitions r types (entries ++ more) = .ok (ids ++ moreIds, nodes ++ moreNodes, left) := by
  induction entries generalizing types ids nodes with
  | nil =>
    rw [nameDefinitions, Except.ok.injEq, Prod.mk.injEq, Prod.mk.injEq] at h
    obtain ⟨rfl, rfl, rfl⟩ := h
    exact hmore
  | cons e entries ih =>
    obtain ⟨id, own, mid, ids', others, hbody, hrest, rfl, rfl⟩ := nameDefinitions_cons h
    simp only [List.cons_append, nameDefinitions, bind_eq_ok, pure_eq_ok]
    exact ⟨_, hbody, _, ih hrest, by simp only [List.append_assoc]⟩

end Bodies

/-! ## Tables -/

/-- The root is named like one more definition behind the others. -/
theorem nameDefinitions_of_assign {schema : Schema} {rootName : Json} {t : Table}
    (h : assign r schema rootName = .ok t) :
    ∃ text left, r.rootText rootName = .ok text ∧ nameDefinitions r (r.freshNames r.reserved)
      (schema.definitions ++ [(text, schema.root)]) =
        .ok (t.definitions ++ [(text, t.root)], t.nodes, left) := by
  simp only [assign, bind_eq_ok, pure_eq_ok] at h
  obtain ⟨⟨ids, nodes, types⟩, hdefinitions, text, htext, ⟨id, others, left⟩, hroot, rfl⟩ := h
  refine ⟨text, left, htext, nameDefinitions_append hdefinitions ?_⟩
  simp only [nameDefinitions, bind_eq_ok, pure_eq_ok]
  exact ⟨_, hroot, _, rfl, by simp⟩

theorem assign_eq_ok {schema : Schema} {rootName : Json} {t : Table}
    (h : assign r schema rootName = .ok t) :
    ∃ text left, nameDefinitions r (r.freshNames r.reserved)
      (schema.definitions ++ [(text, schema.root)]) =
        .ok (t.definitions ++ [(text, t.root)], t.nodes, left) := by
  obtain ⟨text, left, -, hnamed⟩ := nameDefinitions_of_assign h
  exact ⟨text, left, hnamed⟩

namespace Table

/-- A table has the names that a schema needs, at the places where it needs them. -/
structure Suits (t : Table) (s : Schema) : Prop where
  definitions : t.definitions.map Prod.fst = s.names
  nodes : t.nodes.map Prod.fst = (s.walk.filter Node.isNamed).map Node.path
  covers : ∀ m ∈ s.walk, Covers t.nodes m
  own : List.Forall₂ (fun e i => i.1 = e.1 ∧ (e.2.isNamed = true →
    ∃ names, (e.2.path, names) ∈ t.nodes ∧ names.type = i.2)) s.definitions t.definitions
  ownRoot : s.root.isNamed = true → ∃ names, (s.root.path, names) ∈ t.nodes ∧ names.type = t.root

variable {t : Table} {p : Pointer} {schema : Schema} {rootName : Json} {id : String}

theorem suits_of_assign (h : assign r schema rootName = .ok t) : t.Suits schema := by
  obtain ⟨text, left, h⟩ := assign_eq_ok h
  obtain ⟨hnames, hnodes⟩ := map_fst_of_nameDefinitions h
  have hwalk : ((schema.definitions ++ [(text, schema.root)]).map Prod.snd).flatMap Node.preorder =
      schema.walk := by
    rw [Schema.walk, Schema.visit_eq_flatMap, List.map_append]
    rfl
  have hcovers := covers_of_nameDefinitions h
  rw [hwalk] at hnodes hcovers
  simp only [List.map_append, List.map_cons, List.map_nil, List.append_cancel_right_eq] at hnames
  have hlength : t.definitions.length = schema.definitions.length := by
    simpa using congrArg List.length hnames
  have hown := own_of_nameDefinitions h
  have hownDefinitions := List.forall₂_take_append _ _ _ hown
  have hownRoot := List.forall₂_drop_append _ _ _ hown
  rw [hlength, List.take_left] at hownDefinitions
  rw [hlength, List.drop_left, List.forall₂_cons] at hownRoot
  exact ⟨hnames, hnodes, hcovers, hownDefinitions, hownRoot.1.2⟩

theorem Suits.nodup_nodes {s : Schema} (h : t.Suits s) (hs : s.Sound) :
    (t.nodes.map Prod.fst).Nodup := by
  rw [h.nodes]
  exact (List.filter_sublist.map _).nodup hs.nodup_walk_paths

theorem at?_eq_ok (h : (t.nodes.map Prod.fst).Nodup) {α : Type} {part : Names → Option α} {a : α} :
    t.at? part p = .ok a ↔ ∃ names, (p, names) ∈ t.nodes ∧ part names = some a := by
  simp only [at?, ← lookup_eq_some_iff_mem h]
  cases hlookup : t.nodes.lookup p with
  | none => simp
  | some names => cases hpart : part names <;> simp [hpart]

theorem typeName_eq_ok (h : (t.nodes.map Prod.fst).Nodup) :
    t.typeName p = .ok id ↔ ∃ names, (p, names) ∈ t.nodes ∧ names.type = id := by
  simp only [typeName, at?_eq_ok h, Option.some.injEq]

theorem tagField_eq_ok (h : (t.nodes.map Prod.fst).Nodup) {f : FieldName} :
    t.tagField p = .ok f ↔ ∃ type, (p, .union type f) ∈ t.nodes := by
  rw [tagField, at?_eq_ok h]
  constructor
  · rintro ⟨names, hmem, hpart⟩
    cases names with
    | union type tag => exact ⟨type, Option.some.inj hpart ▸ hmem⟩
    | enum | struct => cases hpart
  · rintro ⟨type, hmem⟩
    exact ⟨_, hmem, rfl⟩

theorem fieldName_eq_ok (h : (t.nodes.map Prod.fst).Nodup) {key : String} {f : FieldName} :
    t.fieldName p key = .ok f ↔ ∃ type fields,
      (p, .struct type fields) ∈ t.nodes ∧ fields.find? (fun f => f.key = key) = some f := by
  simp only [fieldName, bind_eq_ok, at?_eq_ok h]
  constructor
  · rintro ⟨fields, ⟨names, hmem, hpart⟩, hfind⟩
    cases names with
    | struct type fields' =>
      obtain rfl := Option.some.inj hpart
      refine ⟨type, fields', hmem, ?_⟩
      split at hfind
      · next f' hf' => rw [hf', pure_eq_ok.1 hfind]
      · cases hfind
    | enum | union => cases hpart
  · rintro ⟨type, fields, hmem, hfind⟩
    exact ⟨fields, ⟨_, hmem, rfl⟩, by rw [hfind]; rfl⟩

theorem enumMember_eq_ok (h : (t.nodes.map Prod.fst).Nodup) {value : String} :
    t.enumMember p value = .ok id ↔ ∃ type members,
      (p, .enum type members) ∈ t.nodes ∧ members.lookup value = some id := by
  simp only [enumMember, bind_eq_ok, at?_eq_ok h]
  constructor
  · rintro ⟨members, ⟨names, hmem, hpart⟩, hfind⟩
    cases names with
    | enum type members' =>
      obtain rfl := Option.some.inj hpart
      refine ⟨type, members', hmem, ?_⟩
      split at hfind
      · next id' hid' => rw [hid', pure_eq_ok.1 hfind]
      · cases hfind
    | struct | union => cases hpart
  · rintro ⟨type, members, hmem, hfind⟩
    exact ⟨members, ⟨_, hmem, rfl⟩, by rw [hfind]; rfl⟩

theorem definition_eq_ok (h : (t.definitions.map Prod.fst).Nodup) {name : String} :
    t.definition name = .ok id ↔ (name, id) ∈ t.definitions := by
  rw [definition, ← lookup_eq_some_iff_mem h]
  cases t.definitions.lookup name <;> simp

/-! ## The scope of types -/

/-- The identifiers of the types, by the places that declare them. -/
def types (t : Table) : List (Pointer × String) := t.select fun names => some names.type

/-- The identifiers of the types that are neither definitions nor the root. -/
def nestedTypes (t : Table) (s : Schema) : List String :=
  (t.types.filter fun e => e.1 ∉ (s.definitions.map Prod.snd ++ [s.root]).map Node.path).map
    Prod.snd

/-- The identifiers of all members of enumerations. -/
def allMembers (t : Table) : List String :=
  (t.select Names.members?).flatMap fun e => e.2.map Prod.snd

/-- The identifiers of the definitions and the root, where they declare no type of their own. -/
def aliases (t : Table) (s : Schema) : List String :=
  aliasIds (s.definitions.map Prod.snd ++ [s.root]) (t.definitions.map Prod.snd ++ [t.root])

/-- The identifiers in the scope of types: those of the definitions, of the root, of nested types
and, where the rules have them named like types, of members. -/
def typeScope (t : Table) (r : Rules) (s : Schema) : List String :=
  t.definitions.map Prod.snd ++ [t.root] ++
    (t.nestedTypes s ++ if r.qualifyMembers.isTruthy then t.allMembers else [])

theorem types_eq (t : Table) : t.types = t.nodes.map fun e => (e.1, e.2.type) := by
  simp [types, select, List.filterMap_eq_map']

theorem flatMap_memberIds (t : Table) (r : Rules) :
    (t.nodes.flatMap fun e => r.memberIds e.2) =
      if r.qualifyMembers.isTruthy then t.allMembers else [] := by
  simp only [Rules.memberIds, allMembers, select]
  split
  · induction t.nodes with
    | nil => rfl
    | cons e nodes ih =>
      rw [List.flatMap_cons, ih, List.filterMap_cons]
      cases e.2.members? <;> simp
  · simp

theorem hands_typeScope (hsound : schema.Sound) (h : assign r schema rootName = .ok t) :
    ∃ all left, Hands (r.freshNames r.reserved) all left ∧ all.Perm (t.typeScope r schema) ∧
      all.Perm (t.nodes.map (fun e => e.2.type) ++ (t.aliases schema ++
        t.nodes.flatMap fun e => r.memberIds e.2)) := by
  obtain ⟨text, left, h⟩ := assign_eq_ok h
  have hbodies : (schema.definitions ++ [(text, schema.root)]).map Prod.snd =
      schema.definitions.map Prod.snd ++ [schema.root] := by simp
  have hpaths := hsound.nodup_walk_paths
  rw [Schema.walk, Schema.visit_eq_flatMap, ← hbodies] at hpaths
  have htops : ∀ e ∈ schema.definitions ++ [(text, schema.root)],
      e.2.path ∈ (schema.definitions.map Prod.snd ++ [schema.root]).map Node.path := by
    intro e he
    rw [← hbodies]
    exact List.mem_map_of_mem (List.mem_map_of_mem he)
  obtain ⟨all, hall, hperm, hperm'⟩ := hands_of_nameDefinitions h htops fun e he m hm hmem => by
    rw [← hbodies] at hmem
    obtain ⟨top, htop, heq⟩ := List.mem_map.1 hmem
    exact Node.path_ne_of_nested hpaths htop (List.mem_map_of_mem he) hm heq.symm
  refine ⟨all, left, hall, hperm.trans ?_, hperm'.trans ?_⟩
  · rw [typeScope, nestedTypes, types_eq, List.filter_map, List.map_map, flatMap_memberIds,
      List.map_append]
    exact .refl _
  · rw [aliases, hbodies, List.map_append]
    exact .refl _

/-- The identifiers of all types and of the definitions and the root that are no types. -/
theorem nodup_declared (hsound : schema.Sound) (h : assign r schema rootName = .ok t) :
    (t.nodes.map (fun e => e.2.type) ++ t.aliases schema).Nodup := by
  obtain ⟨all, left, hall, -, hperm⟩ := hands_typeScope hsound h
  have hnodup := hperm.nodup_iff.1 hall.nodup
  rw [← List.append_assoc] at hnodup
  exact hnodup.of_append_left

end Table

/-- Every definition, the root and every node that declares a type has an identifier in the scope of
types, and so has every value of an enumeration where the rules say so.  A definition or root that
declares a type shares its identifier with that type; all other identifiers are different, none is
reserved, and none is longer than a positive limit. -/
theorem typeScope_of_assign {document : Json} {schema : Schema} {r : Rules} {rootName : Json}
    {t : Table} (hdistinct : document.Distinct) (hresolve : Schema.resolve document = .ok schema)
    (hassign : assign r schema rootName = .ok t) :
    (t.types.map Prod.fst = (schema.walk.filter Node.isNamed).map Node.path ∧
      (t.types.map Prod.fst).Nodup) ∧
    (t.definitions.map Prod.fst = schema.names ∧ schema.names.Nodup) ∧
    (∀ info values, Node.enum info values ∈ schema.walk →
      ∃ members, t.at? Names.members? info.path = .ok members ∧ members.map Prod.fst = values) ∧
    (∀ name body, schema.definition? name = some body → body.isNamed = true →
      ∃ id, t.definition name = .ok id ∧ t.typeName body.path = .ok id) ∧
    (schema.root.isNamed = true → t.typeName .root = .ok t.root) ∧
    (t.typeScope r schema).Nodup ∧
    (∀ id ∈ t.typeScope r schema, id ∉ r.reserved.words) ∧
    ∀ limit : Int, lengthLimit r.maxLength = .ok (some limit) → 0 < limit →
      ∀ id ∈ t.typeScope r schema, (id.length : Int) ≤ limit := by
  have hsound := Schema.sound_of_resolve hdistinct hresolve
  have hsuits := Table.suits_of_assign hassign
  have hnodes := hsuits.nodup_nodes hsound
  have htypes : t.types.map Prod.fst = t.nodes.map Prod.fst := by
    rw [Table.types_eq, List.map_map]
    rfl
  obtain ⟨all, left, hall, hperm, -⟩ := Table.hands_typeScope hsound hassign
  refine ⟨⟨htypes.trans hsuits.nodes, htypes ▸ hnodes⟩, ⟨hsuits.definitions, hsound.nodup_names⟩,
    ?_, ?_, ?_, hperm.nodup_iff.1 hall.nodup, ?_, ?_⟩
  · intro info values hmem
    obtain ⟨type, members, hentry, hvalues⟩ := hsuits.covers _ hmem
    exact ⟨members, (Table.at?_eq_ok hnodes).2 ⟨_, hentry, rfl⟩, hvalues⟩
  · intro name body hbody hnamed
    obtain ⟨⟨name', id⟩, hid, heq, hown⟩ := exists_of_mem_left hsuits.own (mem_of_lookup hbody)
    obtain rfl : name' = name := heq
    have hdefinitions : (t.definitions.map Prod.fst).Nodup :=
      hsuits.definitions ▸ hsound.nodup_names
    exact ⟨id, (Table.definition_eq_ok hdefinitions).2 hid,
      (Table.typeName_eq_ok hnodes).2 (hown hnamed)⟩
  · intro hnamed
    rw [← hsound.root.path_eq]
    exact (Table.typeName_eq_ok hnodes).2 (hsuits.ownRoot hnamed)
  · exact fun id hid => hall.notMem_reserved (hperm.mem_iff.2 hid)
  · exact fun limit hlimit hpos id hid => hall.length_le (hperm.mem_iff.2 hid) hlimit hpos

/-! ## A schema with a union, named within seven characters -/

/-- A union of two structs, with a definition that may be null and a second name for it. -/
def sketchDocument : Json := .object [
  ("definitions", .object [
    ("color", .object [
      ("enum", .array [.string "red", .string "class"]), ("nullable", .bool true)]),
    ("shade", .object [("ref", .string "color")])]),
  ("discriminator", .string "kind"),
  ("mapping", .object [
    ("dot", .object [("properties", .object [("tint", .object [("ref", .string "shade")])])]),
    ("dash", .object [("optionalProperties", .object [
      ("ends", .object [("elements", .object [("type", .string "int32")])])])])])]

/-- The nodes of the document. -/
def sketchSchema : Schema where
  definitions := [
    ("color", .enum ⟨⟨["definitions", "color"]⟩, true, some "color", []⟩ ["red", "class"]),
    ("shade", .ref ⟨⟨["definitions", "shade"]⟩, false, some "shade", []⟩ "color")]
  root := .discriminator ⟨⟨[]⟩, false, none, []⟩ "kind" [
    ("dot", .properties ⟨⟨["mapping", "dot"]⟩, false, none, []⟩
      [("tint",
        .ref ⟨⟨["mapping", "dot", "properties", "tint"]⟩, false, none, []⟩ "shade")] [] false),
    ("dash", .properties ⟨⟨["mapping", "dash"]⟩, false, none, []⟩ []
      [("ends", .elements ⟨⟨["mapping", "dash", "optionalProperties", "ends"]⟩, false, none, []⟩
        (.type ⟨⟨["mapping", "dash", "optionalProperties", "ends", "elements"]⟩, false, none, []⟩
          .int32))] false)]

/-- Rules that keep the spelling, reserve a word and cut names. -/
def sketchRules : Rules where
  typeCase := .preserve
  separator := .underscore
  reserved := ⟨["color"], []⟩
  maxLength := .int 7
  qualifyMembers := .bool true

/-- The names of the schema by these rules. -/
def sketchNames : Table where
  root := "sketch"
  definitions := [("color", "color_"), ("shade", "shade")]
  nodes := [
    (⟨["definitions", "color"]⟩, .enum "color_" [("red", "color_r"), ("class", "color_c")]),
    (⟨[]⟩, .union "sketch" ⟨"kind", "kind"⟩),
    (⟨["mapping", "dot"]⟩, .struct "sketch_" [⟨"kind", "kind"⟩, ⟨"tint", "tint"⟩]),
    (⟨["mapping", "dash"]⟩, .struct "sketch2" [⟨"kind", "kind"⟩, ⟨"ends", "ends"⟩])]

theorem distinct_sketch : sketchDocument.Distinct := by
  simp [sketchDocument, Json.keys]

theorem resolve_sketch : Schema.resolve sketchDocument = .ok sketchSchema := by
  with_unfolding_all rfl

theorem assign_sketch : assign sketchRules sketchSchema (.string "sketch") = .ok sketchNames := by
  with_unfolding_all rfl

theorem typeScope_sketch :
    sketchDocument.Distinct ∧ Schema.resolve sketchDocument = .ok sketchSchema ∧
      assign sketchRules sketchSchema (.string "sketch") = .ok sketchNames ∧
      sketchNames.typeScope sketchRules sketchSchema =
        ["color_", "shade", "sketch", "sketch_", "sketch2", "color_r", "color_c"] ∧
      (sketchNames.typeScope sketchRules sketchSchema).Nodup ∧
      (∀ id ∈ sketchNames.typeScope sketchRules sketchSchema, id ∉ ["color"]) ∧
      ∀ id ∈ sketchNames.typeScope sketchRules sketchSchema, (id.length : Int) ≤ 7 := by
  obtain ⟨-, -, -, -, -, hnodup, hreserved, hlength⟩ :=
    typeScope_of_assign distinct_sketch resolve_sketch assign_sketch
  exact ⟨distinct_sketch, resolve_sketch, assign_sketch, by decide, hnodup, hreserved,
    hlength 7 rfl (by decide)⟩

end Typegen.Naming
