import Typegen.Proofs.LegalNames
import Typegen.Proofs.Mapped

/-!
# The type expressions that the mapping makes

`TypeExpr.Formed` lists the shapes that type expressions take: any value and the primitive types as
the target spells them, declared types, literals, and arrays, maps and optional values that hold one
expression each.  All expressions of a mapped schema are of that kind, and the types they name are
those of the table (`formed_of_mapSchema`).
-/

namespace Typegen

open Schema (Node)

/-- An expression as the mapping makes them for a target, where all declared types that it names
satisfy a predicate. -/
inductive TypeExpr.Formed (target : Target) (P : String → Prop) : TypeExpr → Prop
  | any : Formed target P (.any target.anyType)
  | primitive (p : Schema.Primitive) (notes : List String) :
      Formed target P (.primitive (target.spelling p) notes)
  | named {id : String} (h : P id) (definition : Option String) (byReference : Bool) :
      Formed target P (.named id definition byReference)
  | literal (value : String) : Formed target P (.literal value)
  | array {item : TypeExpr} (h : Formed target P item) : Formed target P (.array item)
  | map {item : TypeExpr} (h : Formed target P item) : Formed target P (.map item)
  | optional {item : TypeExpr} (h : Formed target P item) (absent null : Bool) :
      Formed target P
        { kind := .optional, args := [item], mayBeAbsent := absent, mayBeNull := null }

namespace TypeExpr

theorem walk_eq (t : TypeExpr) : t.walk = t :: walkAll t.args := by
  cases t
  rw [walk]

theorem walkAll_eq (ts : List TypeExpr) : walkAll ts = ts.flatMap walk := by
  induction ts with
  | nil => rw [walkAll, List.flatMap_nil]
  | cons t ts ih => rw [walkAll, ih, List.flatMap_cons]

variable {target : Target} {P : String → Prop} {t : TypeExpr}

theorem Formed.withOptionality (h : t.Formed target P) (absent null : Bool) :
    (t.withOptionality absent null).Formed target P := by
  cases h with
  | optional h absent' null' => exact .optional h (absent' || absent) (null' || null)
  | any => exact .optional .any absent null
  | primitive p notes => exact .optional (.primitive p notes) absent null
  | named h definition byReference => exact .optional (.named h definition byReference) absent null
  | literal value => exact .optional (.literal value) absent null
  | array h => exact .optional (.array h) absent null
  | map h => exact .optional (.map h) absent null

theorem Formed.imp {Q : String → Prop} (h : t.Formed target P) (hPQ : ∀ id, P id → Q id) :
    t.Formed target Q := by
  induction h with
  | any => exact .any
  | primitive p notes => exact .primitive p notes
  | named h definition byReference => exact .named (hPQ _ h) definition byReference
  | literal value => exact .literal value
  | array _ ih => exact .array ih
  | map _ ih => exact .map ih
  | optional _ absent null ih => exact .optional ih absent null

theorem Formed.nullIf (h : t.Formed target P) (null : Bool) : (t.nullIf null).Formed target P := by
  cases null
  · exact h
  · exact h.withOptionality false true

theorem Formed.of_kind_named (h : t.Formed target P) (hkind : t.kind = .named) :
    P t.name ∧ t.args = [] := by
  cases h with
  | named hid => exact ⟨hid, rfl⟩
  | _ => cases hkind

/-- What an expression holds is made in the same way. -/
theorem Formed.of_mem_walk (h : t.Formed target P) : ∀ e ∈ t.walk, e.Formed target P := by
  induction h with
  | any => simpa [TypeExpr.any, walk_eq, walkAll_eq] using Formed.any
  | primitive p notes =>
    simpa [TypeExpr.primitive, walk_eq, walkAll_eq] using Formed.primitive p notes
  | named h definition byReference =>
    simpa [TypeExpr.named, walk_eq, walkAll_eq] using Formed.named h definition byReference
  | literal value => simpa [TypeExpr.literal, walk_eq, walkAll_eq] using Formed.literal value
  | array h ih =>
    rw [walk_eq]
    refine List.forall_mem_cons.2 ⟨.array h, ?_⟩
    simpa [TypeExpr.array, walkAll_eq] using ih
  | map h ih =>
    rw [walk_eq]
    refine List.forall_mem_cons.2 ⟨.map h, ?_⟩
    simpa [TypeExpr.map, walkAll_eq] using ih
  | optional h absent null ih =>
    rw [walk_eq]
    refine List.forall_mem_cons.2 ⟨.optional h absent null, ?_⟩
    simpa [walkAll_eq] using ih

end TypeExpr

namespace Naming.Table

variable {names : Table}

theorem mem_typeNames_of_definition {target id : String} (h : names.definition target = .ok id) :
    id ∈ names.typeNames := by
  unfold definition at h
  split at h
  · next id' hlookup =>
    obtain rfl := Except.ok.inj h
    have hmem := List.mem_map_of_mem (f := Prod.snd) (mem_of_lookup hlookup)
    exact List.mem_cons_of_mem _ (List.mem_append_left _ hmem)
  · cases h

theorem mem_typeNames_of_typeName {path : Pointer} {id : String}
    (h : names.typeName path = .ok id) : id ∈ names.typeNames := by
  unfold typeName at? at h
  split at h
  · next id' hlookup =>
    obtain rfl := Except.ok.inj h
    obtain ⟨node, hnode, hid⟩ := Option.bind_eq_some_iff.1 hlookup
    obtain rfl := Option.some.inj hid
    refine List.mem_cons_of_mem _ (List.mem_append_right _ ?_)
    rw [types_eq, List.map_map]
    exact List.mem_map.2 ⟨_, mem_of_lookup hnode, rfl⟩
  · cases h

end Naming.Table

namespace Mapping

open Naming.Table (mem_typeNames_of_definition mem_typeNames_of_typeName)

variable {s : Scope} {names : List String}

theorem formed_of_mapsNode {p : Pointer} {n : Node} (h : n.Sound names p) {null : Bool}
    {core : TypeExpr} {ds : List Declaration} (hmaps : MapsNode s n null core ds)
    (hs : s.backend.Complete) : core.Formed s.backend.target (· ∈ s.names.typeNames) := by
  induction h generalizing s null core ds with
  | empty =>
    cases hmaps
    exact .any
  | ref =>
    cases hmaps with
    | ref hid => exact .named (mem_typeNames_of_definition hid) _ _
  | type =>
    cases hmaps
    exact .primitive _ _
  | enum =>
    cases hmaps with
    | enum hname => exact .named (mem_typeNames_of_typeName hname) _ _
  | elements _ _ ih =>
    cases hmaps with
    | elements hitem =>
      obtain ⟨null', core', hmaps', rfl⟩ := exists_mapsNode hitem hs
      exact .array ((ih hmaps' hs).nullIf null')
  | values _ _ ih =>
    cases hmaps with
    | values hitem =>
      obtain ⟨null', core', hmaps', rfl⟩ := exists_mapsNode hitem hs
      exact .map ((ih hmaps' hs).nullIf null')
  | properties =>
    cases hmaps with
    | properties _ _ hname => exact .named (mem_typeNames_of_typeName hname) _ _
  | discriminator =>
    cases hmaps with
    | discriminator _ hname => exact .named (mem_typeNames_of_typeName hname) _ _

theorem formed_of_mapFields {path : Pointer} {isOptional : Bool} {entries : List (String × Node)}
    {fields : List Field} {ds : List Declaration}
    (h : mapFields s path isOptional entries = .ok (fields, ds)) (hs : s.backend.Complete)
    (hentries : ∀ e ∈ entries, ∃ p, e.2.Sound names p) :
    ∀ f ∈ fields, f.type.Formed s.backend.target (· ∈ s.names.typeNames) := by
  obtain ⟨results, hresults, rfl, -⟩ := mapFields_eq_ok.1 h
  intro f hf
  obtain ⟨r, hr, rfl⟩ := List.mem_map.1 hf
  obtain ⟨e, he, t, name, hnode, -, hfield⟩ := exists_of_mem_right hresults hr
  obtain ⟨p, hp⟩ := hentries e he
  obtain ⟨null, core, hmaps, rfl⟩ := exists_mapsNode hnode hs
  have hformed := (formed_of_mapsNode hp hmaps hs).nullIf null
  rw [hfield]
  cases isOptional with
  | false => exact hformed
  | true => exact hformed.withOptionality true false

end Mapping

end Typegen
