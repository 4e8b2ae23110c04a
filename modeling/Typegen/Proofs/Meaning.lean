import Typegen.Proofs.AliasChain
import Typegen.Proofs.Mapped

/-!
# What schemas and declarations mean

Two readings, each of which says which JSON values are meant.  `Schema.Accepts` reads the nodes of a
schema, and `Admits` reads type expressions by a table of declarations.  Both are the least
relations that follow their rules, so that nodes or types which only refer to each other mean no
value.  What values the primitive types mean is left open: a reading of the primitive types and one
of their spellings are parameters.
-/

namespace Typegen

open Schema (Node Info Primitive)

/-! ## Schemas -/

/-- A node of a schema accepts a value, given what the primitive types accept. -/
inductive Schema.Accepts (s : Schema) (reads : Primitive → Json → Prop) : Node → Json → Prop
  | null {n : Node} (hnull : n.nullable = true) : Accepts s reads n .null
  | empty {info : Info} {v : Json} : Accepts s reads (.empty info) v
  | ref {info : Info} {target : String} {body : Node} {v : Json}
      (hbody : s.definition? target = some body) (hv : Accepts s reads body v) :
      Accepts s reads (.ref info target) v
  | type {info : Info} {p : Primitive} {v : Json} (hv : reads p v) :
      Accepts s reads (.type info p) v
  | enum {info : Info} {values : List String} {value : String} (hvalue : value ∈ values) :
      Accepts s reads (.enum info values) (.string value)
  | elements {info : Info} {item : Node} {items : List Json}
      (hitems : ∀ v ∈ items, Accepts s reads item v) :
      Accepts s reads (.elements info item) (.array items)
  | values {info : Info} {item : Node} {members : List (String × Json)}
      (hmembers : ∀ m ∈ members, Accepts s reads item m.2) :
      Accepts s reads (.values info item) (.object members)
  | properties {info : Info} {required optional : List (String × Node)} {additional : Bool}
      {members : List (String × Json)}
      (hpresent : ∀ e ∈ required, e.1 ∈ Json.keys members)
      (hmembers : ∀ e ∈ required ++ optional, ∀ v, Json.get? members e.1 = some v →
        Accepts s reads e.2 v)
      (hknown : additional = false → ∀ key ∈ Json.keys members,
        key ∈ (required ++ optional).map Prod.fst) :
      Accepts s reads (.properties info required optional additional) (.object members)
  | discriminator {info : Info} {tag value : String} {mapping : List (String × Node)}
      {branch : Node} {members : List (String × Json)}
      (htag : Json.get? members tag = some (.string value)) (hbranch : (value, branch) ∈ mapping)
      (hrest : Accepts s reads branch (.object (members.filter fun m => m.1 ≠ tag))) :
      Accepts s reads (.discriminator info tag mapping) (.object members)

/-- Null is accepted along an alias chain. -/
theorem Schema.NullChain.accepts {s : Schema} {reads : Primitive → Json → Prop} {ts : List String}
    {n : Node} (h : NullChain s ts n) : s.Accepts reads n .null := by
  induction h with
  | here hnull => exact .null hnull
  | step hnext _ ih => exact .ref hnext ih

/-! ## Declarations -/

/-- A type expression admits a value, given the declarations by name and what the spellings of
primitive types admit. -/
inductive Admits (env : List (String × Declaration)) (spelled : String → Json → Prop) :
    TypeExpr → Json → Prop
  | any {t : TypeExpr} {v : Json} (hkind : t.kind = .any) : Admits env spelled t v
  | primitive {t : TypeExpr} {v : Json} (hkind : t.kind = .primitive) (hv : spelled t.name v) :
      Admits env spelled t v
  | literal {t : TypeExpr} (hkind : t.kind = .literal) : Admits env spelled t (.string t.name)
  | array {t item : TypeExpr} {items : List Json} (hkind : t.kind = .array)
      (hitem : t.inner = .ok item) (hitems : ∀ v ∈ items, Admits env spelled item v) :
      Admits env spelled t (.array items)
  | map {t item : TypeExpr} {members : List (String × Json)} (hkind : t.kind = .map)
      (hitem : t.inner = .ok item) (hmembers : ∀ m ∈ members, Admits env spelled item m.2) :
      Admits env spelled t (.object members)
  | null {t : TypeExpr} (hkind : t.kind = .optional) (hnull : t.mayBeNull = true) :
      Admits env spelled t .null
  | optional {t item : TypeExpr} {v : Json} (hkind : t.kind = .optional)
      (hitem : t.inner = .ok item) (hv : Admits env spelled item v) : Admits env spelled t v
  | enum {t : TypeExpr} {header : Header} {members : List (String × String)}
      {member : String × String} (hkind : t.kind = .named)
      (hd : env.lookup t.name = some (.enum header members)) (hmember : member ∈ members) :
      Admits env spelled t (.string member.2)
  | synonym {t target : TypeExpr} {header : Header} {v : Json} (hkind : t.kind = .named)
      (hd : env.lookup t.name = some (.synonym header target)) (hv : Admits env spelled target v) :
      Admits env spelled t v
  | struct {t : TypeExpr} {header : Header} {fields : List Field} {base : Option String}
      {additional : Bool} {members : List (String × Json)} (hkind : t.kind = .named)
      (hd : env.lookup t.name = some (.struct header fields base additional))
      (hpresent : ∀ f ∈ fields, f.mayBeAbsent = false → f.wire ∈ Json.keys members)
      (hmembers : ∀ f ∈ fields, ∀ v, Json.get? members f.wire = some v →
        Admits env spelled f.type v)
      (hknown : additional = false → ∀ key ∈ Json.keys members, key ∈ fields.map Field.wire) :
      Admits env spelled t (.object members)
  | union {t : TypeExpr} {header : Header} {tagName tagWire : String}
      {variants : List (String × String)} {variant : String × String} {v : Json}
      (hkind : t.kind = .named)
      (hd : env.lookup t.name = some (.union header tagName tagWire variants))
      (hvariant : variant ∈ variants) (hv : Admits env spelled (.named variant.2) v) :
      Admits env spelled t v

section

variable {env : List (String × Declaration)} {spelled : String → Json → Prop} {v : Json}
  {t core : TypeExpr}

/-- All that matters of a name is the name. -/
theorem Admits.of_named {t' : TypeExpr} (h : Admits env spelled t v) (hkind : t.kind = .named)
    (hkind' : t'.kind = .named) (hname : t'.name = t.name) : Admits env spelled t' v := by
  cases h with
  | enum _ hd hmember => exact .enum hkind' (hname ▸ hd) hmember
  | synonym _ hd hv => exact .synonym hkind' (hname ▸ hd) hv
  | struct _ hd hpresent hmembers hknown =>
    exact .struct hkind' (hname ▸ hd) hpresent hmembers hknown
  | union _ hd hvariant hv => exact .union hkind' (hname ▸ hd) hvariant hv
  | any hother | primitive hother | literal hother | array hother | map hother | null hother
  | optional hother => rw [hother] at hkind; cases hkind

theorem admits_literal_iff {value : String} :
    Admits env spelled (.literal value) v ↔ v = .string value := by
  constructor
  · intro h
    cases h with
    | literal => rfl
    | any hkind | primitive hkind | array hkind | map hkind | null hkind | optional hkind
    | enum hkind | synonym hkind | struct hkind | union hkind => cases hkind
  · rintro rfl
    exact .literal rfl

/-! ## Optional types -/

/-- A type is another one, or an optional one that may be null as told. -/
def TypeExpr.Wraps (t : TypeExpr) (null : Bool) (core : TypeExpr) : Prop :=
  (null = false ∧ t = core) ∨ (t.kind = .optional ∧ t.args = [core] ∧ t.mayBeNull = null)

theorem TypeExpr.wraps_nullIf (hcore : core.kind ≠ .optional) (null : Bool) :
    (core.nullIf null).Wraps null core := by
  cases null
  · exact .inl ⟨rfl, rfl⟩
  · refine .inr ?_
    simp [TypeExpr.nullIf, TypeExpr.withOptionality, hcore]

theorem TypeExpr.Wraps.withOptionality {null : Bool} (h : t.Wraps null core)
    (hcore : core.kind ≠ .optional) : (t.withOptionality true false).Wraps null core := by
  refine .inr ?_
  rcases h with ⟨rfl, rfl⟩ | ⟨hkind, hargs, hnull⟩
  · simp [TypeExpr.withOptionality, hcore]
  · simp [TypeExpr.withOptionality, hkind, hargs, hnull]

/-- An optional type admits what it holds, and null if it is told to. -/
theorem TypeExpr.Wraps.admits_iff {null : Bool} (h : t.Wraps null core) :
    Admits env spelled t v ↔ Admits env spelled core v ∨ (null = true ∧ v = .null) := by
  rcases h with ⟨rfl, rfl⟩ | ⟨hkind, hargs, hnull⟩
  · simp
  · have hinner : t.inner = .ok core := by rw [TypeExpr.inner, hargs]
    constructor
    · intro h
      cases h with
      | null _ hnull' => exact .inr ⟨hnull.symm.trans hnull', rfl⟩
      | optional _ hitem hv =>
        cases hinner.symm.trans hitem
        exact .inl hv
      | any hother | primitive hother | literal hother | array hother | map hother | enum hother
      | synonym hother | struct hother | union hother => rw [hkind] at hother; cases hother
    · rintro (hv | ⟨rfl, rfl⟩)
      · exact .optional hkind hinner hv
      · exact .null hkind hnull

end

/-! ## Structs -/

/-- The members of an object fit the fields of a struct, where the values have to be related to the
types of their fields. -/
structure Fits (P : TypeExpr → Json → Prop) (fields : List Field) (additional : Bool)
    (members : List (String × Json)) : Prop where
  present : ∀ f ∈ fields, f.mayBeAbsent = false → f.wire ∈ Json.keys members
  types : ∀ f ∈ fields, ∀ v, Json.get? members f.wire = some v → P f.type v
  known : additional = false → ∀ key ∈ Json.keys members, key ∈ fields.map Field.wire

section

variable {P : TypeExpr → Json → Prop} {f : Field} {fields : List Field} {additional : Bool}
  {members : List (String × Json)}

/-- The members without a key fit the fields without the field of the key. -/
theorem Fits.tail (h : Fits P (f :: fields) additional members)
    (hfields : ∀ g ∈ fields, g.wire ≠ f.wire) :
    Fits P fields additional (members.filter fun m => m.1 ≠ f.wire) where
  present g hg habsent := Json.mem_keys_filter_ne.2
    ⟨h.present g (List.mem_cons_of_mem _ hg) habsent, hfields g hg⟩
  types g hg v hv := by
    rw [Json.get?_filter_ne (hfields g hg)] at hv
    exact h.types g (List.mem_cons_of_mem _ hg) v hv
  known hadditional key hkey := by
    obtain ⟨hkey, hne⟩ := Json.mem_keys_filter_ne.1 hkey
    exact (List.mem_cons.1 (h.known hadditional key hkey)).resolve_left hne

/-- A member for one more field is added in front of the fields. -/
theorem Fits.cons (h : Fits P fields additional (members.filter fun m => m.1 ≠ f.wire))
    (hfields : ∀ g ∈ fields, g.wire ≠ f.wire) {v : Json} (hget : Json.get? members f.wire = some v)
    (hv : P f.type v) : Fits P (f :: fields) additional members where
  present g hg habsent := by
    rcases List.mem_cons.1 hg with rfl | hg
    · exact Json.mem_keys_iff.2 ⟨v, hget⟩
    · exact (Json.mem_keys_filter_ne.1 (h.present g hg habsent)).1
  types g hg w hw := by
    rcases List.mem_cons.1 hg with rfl | hg
    · exact Option.some.inj (hget.symm.trans hw) ▸ hv
    · exact h.types g hg w ((Json.get?_filter_ne (hfields g hg)).trans hw)
  known hadditional key hkey := by
    by_cases hne : key = f.wire
    · exact hne ▸ List.mem_cons_self
    · exact List.mem_cons_of_mem _
        (h.known hadditional key (Json.mem_keys_filter_ne.2 ⟨hkey, hne⟩))

end

/-! ## Tables of declarations -/

/-- When no name is declared twice, a declaration is found under its name. -/
theorem lookup_byName {ds : List Declaration} (hds : (ds.map Declaration.name).Nodup)
    {d : Declaration} (hd : d ∈ ds) : (Declaration.byName ds).lookup d.name = some d := by
  have hskip : ∀ (ds : List Declaration) (table : List (String × Declaration)) (k : String),
      k ∉ ds.map Declaration.name →
      (ds.foldl (fun table d => Json.setMember d.name d table) table).lookup k =
        table.lookup k := by
    intro ds
    induction ds with
    | nil => exact fun _ _ _ => rfl
    | cons d ds ih =>
      intro table k hk
      rw [List.map_cons, List.mem_cons, not_or] at hk
      rw [List.foldl_cons, ih _ _ hk.2, lookup_setMember, if_neg hk.1]
  unfold Declaration.byName
  generalize ([] : List (String × Declaration)) = table
  induction ds generalizing table with
  | nil => simp at hd
  | cons d' ds ih =>
    rw [List.map_cons, List.nodup_cons] at hds
    rw [List.foldl_cons]
    rcases List.mem_cons.1 hd with rfl | hd
    · rw [hskip ds _ _ hds.1, lookup_setMember, if_pos rfl]
    · exact ih hds.2 hd _

end Typegen
