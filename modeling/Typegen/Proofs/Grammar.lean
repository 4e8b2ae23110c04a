import Typegen.Proofs.Keys
import Typegen.Proofs.Outcome
import Typegen.Schema.Resolve

/-!
# The grammar of schemas

Which documents are schemas, said as rules and not as a procedure.  `LocalRules` collects the rules
for one schema object, the schemas inside it apart.  `WellFormed` demands them of a schema and of
every schema inside it, and adds the rules for the branches of a discriminator (`IsBranch`).
`WellFormedDocument` adds the table of definitions.

The order in which `resolve` checks these rules, and which of several broken ones it reports, does
not matter here: `resolve` succeeds exactly on the well-formed documents.
-/

namespace Typegen.Schema

/-! ## Rules -/

/-- The keywords that select a form. -/
inductive Selector : Form → String → Prop
  | ref : Selector .ref "ref"
  | type : Selector .type "type"
  | enum : Selector .enum "enum"
  | elements : Selector .elements "elements"
  | properties : Selector .properties "properties"
  | optionalProperties : Selector .properties "optionalProperties"
  | values : Selector .values "values"
  | discriminator : Selector .discriminator "discriminator"

/-- The keywords that belong to a form: those that select it, and their companions. -/
inductive OwnKeyword : Form → String → Prop
  | selector {f : Form} {key : String} (h : Selector f key) : OwnKeyword f key
  | additionalProperties : OwnKeyword .properties "additionalProperties"
  | mapping : OwnKeyword .discriminator "mapping"

/-- A form is selected by some keyword of a schema. -/
def Selects (members : List (String × Json)) (f : Form) : Prop :=
  ∃ key ∈ Json.keys members, Selector f key

/-- The value of a keyword has a property, if the keyword is given. -/
def IfGiven (members : List (String × Json)) (key : String) (P : Json → Prop) : Prop :=
  ∀ v, Json.get? members key = some v → P v

/-- A value is a boolean. -/
def IsBoolean (v : Json) : Prop := ∃ b, v = .bool b

/-- A value is an object. -/
def IsObject (v : Json) : Prop := ∃ members, v = .object members

/-- The rules for one schema, the schemas inside it apart. -/
structure LocalRules (names : List String) (atRoot : Bool) (members : List (String × Json)) :
    Prop where
  /-- The keywords select at most one form. -/
  one_form : ∀ f g, Selects members f → Selects members g → f = g
  /-- There are no keywords but common ones and those of the selected form; definitions may be given
  at the root only. -/
  own_keywords : ∀ key ∈ Json.keys members,
    key = "nullable" ∨ key = "metadata" ∨ (key = "definitions" ∧ atRoot = true) ∨
      ∃ f, Selects members f ∧ OwnKeyword f key
  nullable : IfGiven members "nullable" IsBoolean
  metadata : IfGiven members "metadata" IsObject
  ref : IfGiven members "ref" fun v => ∃ target ∈ names, v = .string target
  type : IfGiven members "type" fun v => ∃ p : Primitive, v = .string p.label
  enum : IfGiven members "enum" fun v =>
    ∃ values : List String, v = .array (values.map .string) ∧ values ≠ [] ∧ values.Nodup
  properties : IfGiven members "properties" IsObject
  optionalProperties : IfGiven members "optionalProperties" IsObject
  disjoint : ∀ required optional, Json.get? members "properties" = some (.object required) →
    Json.get? members "optionalProperties" = some (.object optional) →
    ∀ key ∈ Json.keys required, key ∉ Json.keys optional
  additionalProperties : IfGiven members "additionalProperties" fun v =>
    IsBoolean v ∧ Selects members .properties
  discriminator : IfGiven members "discriminator" fun v => ∃ tag, v = .string tag ∧
    ∃ branches, Json.get? members "mapping" = some (.object branches) ∧ branches ≠ []
  mapping : IfGiven members "mapping" fun _ => Selects members .discriminator

/-- What a branch of a discriminator has to be besides a schema: it has the form with properties, it
is not nullable, and it does not declare the tag. -/
def IsBranch (tag : String) (v : Json) : Prop :=
  ∃ members, v = .object members ∧ Selects members .properties ∧
    Json.get? members "nullable" ≠ some (.bool true) ∧
    ∀ key ∈ ["properties", "optionalProperties"], ∀ entries,
      Json.get? members key = some (.object entries) → tag ∉ Json.keys entries

/-- A value is a schema, given the names of the definitions: it is an object, and it and all schemas
inside it follow the rules. -/
inductive WellFormed (names : List String) : Bool → Json → Prop
  | object {atRoot : Bool} {members : List (String × Json)}
      (rules : LocalRules names atRoot members)
      (items : ∀ key ∈ ["elements", "values"], ∀ v,
        Json.get? members key = some v → WellFormed names false v)
      (entries : ∀ key ∈ ["properties", "optionalProperties", "mapping"], ∀ es,
        Json.get? members key = some (.object es) → ∀ e ∈ es, WellFormed names false e.2)
      (branches : ∀ tag es, Json.get? members "discriminator" = some (.string tag) →
        Json.get? members "mapping" = some (.object es) → ∀ e ∈ es, IsBranch tag e.2) :
      WellFormed names atRoot (.object members)

/-- A value is a schema document: an object whose definitions, if there are any, form an object of
schemas, and which is a schema itself.  References may name any of the definitions. -/
def WellFormedDocument (document : Json) : Prop :=
  ∃ members definitions, document = .object members ∧
    (Json.get? members "definitions" = some (.object definitions) ∨
      Json.get? members "definitions" = none ∧ definitions = []) ∧
    (∀ e ∈ definitions, WellFormed (Json.keys definitions) false e.2) ∧
    WellFormed (Json.keys definitions) true document

/-! ## Forms and keywords -/

section

variable {names : List String} {site : Site} {members : List (String × Json)} {key : String}
  {f form : Form} {info : Info}

theorem selector_iff : Selector f key ↔ key ∈ f.selectors := by
  constructor
  · intro h
    cases h <;> simp [Form.selectors, Form.label]
  · intro h
    cases f <;>
      simp only [Form.selectors, Form.label, List.mem_cons, List.not_mem_nil, or_false] at h
    case properties =>
      rcases h with rfl | rfl
      · exact .properties
      · exact .optionalProperties
    all_goals subst h; constructor

theorem ownKeyword_iff : OwnKeyword f key ↔ key ∈ f.keywords := by
  constructor
  · intro h
    cases h with
    | selector h => cases h <;> simp [Form.keywords, Form.selectors, Form.label]
    | additionalProperties => simp [Form.keywords]
    | mapping => simp [Form.keywords]
  · intro h
    cases f
    case properties =>
      simp only [Form.keywords, List.mem_cons, List.not_mem_nil, or_false] at h
      rcases h with rfl | rfl | rfl
      · exact .selector .properties
      · exact .selector .optionalProperties
      · exact .additionalProperties
    case discriminator =>
      simp only [Form.keywords, List.mem_cons, List.not_mem_nil, or_false] at h
      rcases h with rfl | rfl
      · exact .selector .discriminator
      · exact .mapping
    all_goals exact .selector (selector_iff.2 h)

theorem eq_properties_of_ownKeyword (h : OwnKeyword f "additionalProperties") :
    f = .properties := by
  rw [ownKeyword_iff] at h
  cases f <;> simp [Form.keywords, Form.selectors, Form.label] at h ⊢

theorem eq_discriminator_of_ownKeyword (h : OwnKeyword f "mapping") : f = .discriminator := by
  rw [ownKeyword_iff] at h
  cases f <;> simp [Form.keywords, Form.selectors, Form.label] at h ⊢

theorem selects_of_get? (hs : Selector f key) {v : Json} (hv : Json.get? members key = some v) :
    Selects members f :=
  ⟨key, Json.mem_keys_iff.2 ⟨v, hv⟩, hs⟩

theorem mem_selectedForms : f ∈ selectedForms members ↔ Selects members f := by
  have hall : f ∈ Form.all := by cases f <;> simp [Form.all]
  simp only [selectedForms, List.mem_filter, hall, true_and, List.any_eq_true, Json.hasKey_iff,
    Selects, selector_iff]
  exact ⟨fun ⟨k, h₁, h₂⟩ => ⟨k, h₂, h₁⟩, fun ⟨k, h₁, h₂⟩ => ⟨k, h₂, h₁⟩⟩

theorem nodup_selectedForms : (selectedForms members).Nodup :=
  List.Nodup.filter _ (by decide)

/-- The form that is read: the only selected one, or the empty form where nothing is selected and no
companion keyword stands alone. -/
theorem readForm_eq_ok : readForm site members = .ok form ↔
    (Selects members form ∧ ∀ g, Selects members g → g = form) ∨
      (form = .empty ∧ (∀ g, ¬ Selects members g) ∧
        "additionalProperties" ∉ Json.keys members ∧ "mapping" ∉ Json.keys members) := by
  have hmem : ∀ g, Selects members g ↔ g ∈ selectedForms members := fun g => mem_selectedForms.symm
  have hnodup : (selectedForms members).Nodup := nodup_selectedForms
  simp only [hmem, readForm, ← Json.hasKey_iff]
  generalize selectedForms members = forms at hnodup
  rcases forms with _ | ⟨f, _ | ⟨g, rest⟩⟩
  · by_cases h₁ : Json.hasKey members "additionalProperties" <;>
      by_cases h₂ : Json.hasKey members "mapping" <;> simp [h₁, h₂, Site.fail, eq_comm]
  · simp only [Except.ok.injEq, List.mem_singleton, forall_eq]
    constructor
    · rintro rfl
      exact .inl ⟨rfl, rfl⟩
    · rintro (⟨h, -⟩ | ⟨-, h, -⟩)
      · exact h.symm
      · exact h.elim
  · have hne : f ≠ g := by
      rintro rfl
      simp at hnodup
    simp only [Site.fail, reduceCtorEq, false_iff, not_or, not_and]
    refine ⟨fun _ h => hne ?_, fun _ h => ?_⟩
    · rw [h f (by simp), h g (by simp)]
    · exact absurd List.mem_cons_self (h f)

theorem sortedStrings_eq_nil {xs : List String} : sortedStrings xs = [] ↔ xs = [] := by
  unfold sortedStrings
  constructor
  · intro h
    have hlength : (xs.mergeSort fun a b => decide (a ≤ b)).length = xs.length :=
      List.length_mergeSort _
    rw [h] at hlength
    exact List.length_eq_zero_iff.1 hlength.symm
  · rintro rfl
    exact List.mergeSort_nil

theorem checkKeywords_eq_ok : checkKeywords site form members = .ok () ↔
    ∀ key ∈ Json.keys members, key = "nullable" ∨ key = "metadata" ∨
      (key = "definitions" ∧ site.isRoot = true) ∨ OwnKeyword form key := by
  have hallowed : ∀ key, key ∈ allowedKeywords site form ↔ key = "nullable" ∨ key = "metadata" ∨
      (key = "definitions" ∧ site.isRoot = true) ∨ OwnKeyword form key := by
    intro key
    rw [ownKeyword_iff]
    cases h : site.isRoot <;> simp [allowedKeywords, h]
    tauto
  have hnil : (Json.keys members).filter (fun k => !(allowedKeywords site form).contains k) = [] ↔
      ∀ key ∈ Json.keys members, key ∈ allowedKeywords site form := by
    simp [List.filter_eq_nil_iff]
  simp only [← hallowed, ← hnil]
  rw [← sortedStrings_eq_nil, checkKeywords]
  split
  · next h => exact ⟨fun _ => h, fun _ => rfl⟩
  · next h =>
    refine ⟨fun hfail => ?_, fun hnone => absurd hnone h⟩
    split_ifs at hfail <;> simp [Site.fail] at hfail

theorem readFlag_isSome : (∃ b, readFlag members key = some b) ↔ IfGiven members key IsBoolean := by
  unfold readFlag IfGiven
  rcases Json.get? members key with _ | v
  · simp
  · cases v <;> simp [IsBoolean]

theorem readObject_isSome :
    (∃ ms, readObject members key = some ms) ↔ IfGiven members key IsObject := by
  unfold readObject IfGiven
  rcases Json.get? members key with _ | v
  · simp
  · cases v <;> simp [IsObject]

/-- The members that are read for a keyword are those of its object, or none when it is left out. -/
theorem readObject_eq_some {ms : List (String × Json)} :
    readObject members key = some ms ↔
      Json.get? members key = some (.object ms) ∨ Json.get? members key = none ∧ ms = [] := by
  unfold readObject
  rcases Json.get? members key with _ | v
  · simp [eq_comm]
  · cases v <;> simp

theorem membersAt_of_readObject {ms : List (String × Json)} (h : readObject members key = some ms) :
    membersAt members key = ms := by
  rcases readObject_eq_some.1 h with hget | ⟨hget, rfl⟩
  · simp only [membersAt, hget]
  · simp only [membersAt, hget]

/-! ## The keywords of each form -/

theorem ofLabel?_eq_some_iff {s : String} {p : Primitive} :
    Primitive.ofLabel? s = some p ↔ s = p.label := by
  constructor
  · intro h
    have hp := List.find?_some h
    exact (of_decide_eq_true hp).symm
  · rintro rfl
    cases p <;> rfl

theorem stringItems?_eq_some_iff {items : List Json} {values : List String} :
    stringItems? items = some values ↔ items = values.map .string := by
  induction items generalizing values with
  | nil => cases values <;> simp [stringItems?]
  | cons v items ih => cases v <;> cases values <;> simp [stringItems?, ih, and_comm]

theorem firstRepeat?_eq_none_iff {κ : Type} [DecidableEq κ] {seen keys : List κ} :
    Json.firstRepeat? seen keys = none ↔ keys.Nodup ∧ ∀ k ∈ keys, k ∉ seen := by
  induction keys generalizing seen with
  | nil => simp [Json.firstRepeat?]
  | cons k keys ih =>
    rw [Json.firstRepeat?, List.nodup_cons]
    by_cases h : k ∈ seen
    · simp [h]
    · simp only [List.contains_eq_mem, h, decide_false, Bool.false_eq_true, if_false, ih,
        List.mem_cons, not_or, forall_eq_or_imp, not_false_eq_true, true_and]
      constructor
      · rintro ⟨hnodup, hne⟩
        exact ⟨⟨fun hk => (hne k hk).1 rfl, hnodup⟩, fun x hx => (hne x hx).2⟩
      · rintro ⟨⟨hk, hnodup⟩, hseen⟩
        exact ⟨hnodup, fun x hx => ⟨fun e => hk (e ▸ hx), hseen x hx⟩⟩

theorem readHead_ref {head : Head} : readHead names site members .ref = .ok head ↔
    ∃ target, Json.get? members "ref" = some (.string target) ∧ target ∈ names ∧
      head = .ref target := by
  simp only [readHead]
  rcases Json.get? members "ref" with _ | v
  · simp [Site.fail]
  · cases v with
    | string target => by_cases h : target ∈ names <;> simp [h, Site.fail, eq_comm]
    | _ => simp [Site.fail]

theorem readHead_type {head : Head} : readHead names site members .type = .ok head ↔
    ∃ p : Primitive, Json.get? members "type" = some (.string p.label) ∧ head = .type p := by
  simp only [readHead]
  rcases Json.get? members "type" with _ | v
  · simp [Site.fail]
  · cases v with
    | string s =>
      simp only [Option.getD_some, Option.some.injEq, Json.string.injEq, ← ofLabel?_eq_some_iff]
      cases Primitive.ofLabel? s <;> simp [Site.fail, eq_comm]
    | _ => simp [Site.fail]

theorem readEnum_eq_ok {items : List Json} {head : Head} : readEnum site (.array items) = .ok head ↔
    ∃ values, items = values.map .string ∧ values ≠ [] ∧ values.Nodup ∧ head = .enum values := by
  simp only [readEnum, ← stringItems?_eq_some_iff]
  rcases stringItems? items with _ | (_ | ⟨s, rest⟩)
  · simp [Site.fail]
  · simp [Site.fail]
  · have hnodup : Json.firstRepeat? [] (s :: rest) = none ↔ (s :: rest).Nodup := by
      simp [firstRepeat?_eq_none_iff]
    simp only [Option.some.injEq, exists_eq_left', ne_eq, reduceCtorEq, not_false_eq_true, true_and,
      ← hnodup]
    cases Json.firstRepeat? [] (s :: rest) <;> simp [Site.fail, eq_comm]

theorem readHead_enum {head : Head} : readHead names site members .enum = .ok head ↔
    ∃ values, Json.get? members "enum" = some (.array (values.map .string)) ∧ values ≠ [] ∧
      values.Nodup ∧ head = .enum values := by
  simp only [readHead]
  rcases Json.get? members "enum" with _ | v
  · simp [readEnum, Site.fail]
  · cases v with
    | array items => simp [readEnum_eq_ok]
    | _ => simp [readEnum, Site.fail]

theorem readHead_discriminator {head : Head} :
    readHead names site members .discriminator = .ok head ↔
      ∃ tag branches, Json.get? members "discriminator" = some (.string tag) ∧
        Json.get? members "mapping" = some (.object branches) ∧ branches ≠ [] ∧
        head = .discriminator tag := by
  simp only [readHead, readDiscriminator]
  rcases Json.get? members "discriminator" with _ | v
  · simp [Site.fail]
  · cases v with
    | string tag =>
      rcases Json.get? members "mapping" with _ | w
      · simp [Site.fail]
      · cases w with
        | object branches => cases branches <;> simp [Site.fail, eq_comm]
        | _ => simp [Site.fail]
    | _ => simp [Site.fail]

theorem readHead_properties {head : Head} :
    readHead names site members .properties = .ok head ↔
      ∃ required optional additional, readObject members "properties" = some required ∧
        readObject members "optionalProperties" = some optional ∧
        (∀ key ∈ Json.keys required, key ∉ Json.keys optional) ∧
        readFlag members "additionalProperties" = some additional ∧
        head = .properties additional := by
  simp only [readHead, readProperties]
  rcases readObject members "properties" with _ | required
  · simp [Site.fail]
  rcases readObject members "optionalProperties" with _ | optional
  · simp [Site.fail]
  have hnil : (∀ key ∈ Json.keys required, key ∉ Json.keys optional) ↔
      (Json.keys required).filter (Json.hasKey optional) = [] := by
    simp [List.filter_eq_nil_iff, ← Json.hasKey_iff]
  simp only [Option.some.injEq, exists_and_left, exists_eq_left', hnil]
  cases (Json.keys required).filter (Json.hasKey optional) with
  | nil => cases readFlag members "additionalProperties" <;> simp [Site.fail, eq_comm]
  | cons k overlap => simp [Site.fail]

/-! ## One schema -/

theorem readInfo_eq_ok : readInfo site members = .ok info ↔
    ∃ nullable metadata, readFlag members "nullable" = some nullable ∧
      readObject members "metadata" = some metadata ∧
      info = ⟨site.path, nullable, site.definition, metadata⟩ := by
  unfold readInfo
  rcases readFlag members "nullable" with _ | nullable
  · simp [Site.fail]
  · rcases readObject members "metadata" with _ | metadata <;> simp [Site.fail, eq_comm]

theorem readSchema_eq_ok {head : Head} :
    readSchema names site members = .ok (info, head) ↔
      ∃ form, readForm site members = .ok form ∧ checkKeywords site form members = .ok () ∧
        readInfo site members = .ok info ∧ readHead names site members form = .ok head := by
  unfold readSchema
  simp only [bind_eq_ok, pure_eq_ok, Prod.mk.injEq]
  constructor
  · rintro ⟨form, hform, ⟨⟩, hkeys, info, hinfo, head, hhead, rfl, rfl⟩
    exact ⟨form, hform, hkeys, hinfo, hhead⟩
  · rintro ⟨form, hform, hkeys, hinfo, hhead⟩
    exact ⟨form, hform, (), hkeys, info, hinfo, head, hhead, rfl, rfl⟩

theorem eq_of_readForm {g : Form} (h : readForm site members = .ok form) (hg : Selects members g) :
    g = form := by
  rcases readForm_eq_ok.1 h with ⟨-, honly⟩ | ⟨-, hnone, -⟩
  · exact honly g hg
  · exact absurd hg (hnone g)

/-- The head of a schema is read by the rules of any form that a keyword selects. -/
theorem readHead_of_selects {g : Form} {head : Head} (hform : readForm site members = .ok form)
    (hhead : readHead names site members form = .ok head) (hg : Selects members g) :
    readHead names site members g = .ok head := by
  rw [eq_of_readForm hform hg]
  exact hhead

theorem localRules_of_readSchema {head : Head}
    (h : readSchema names site members = .ok (info, head)) :
    LocalRules names site.isRoot members := by
  obtain ⟨form, hform, hkeys, hinfo, hhead⟩ := readSchema_eq_ok.1 h
  obtain ⟨nullable, metadata, hnullable, hmetadata, -⟩ := readInfo_eq_ok.1 hinfo
  have hkeys := checkKeywords_eq_ok.1 hkeys
  have hread : ∀ {g : Form}, Selects members g → readHead names site members g = .ok head :=
    fun hg => readHead_of_selects hform hhead hg
  -- Whatever belongs to the form that was read is selected, as nothing belongs to the empty form.
  have hown : ∀ {key : String}, OwnKeyword form key → Selects members form := by
    intro key hkey
    rcases readForm_eq_ok.1 hform with ⟨hsel, -⟩ | ⟨rfl, -⟩
    · exact hsel
    · exact absurd (ownKeyword_iff.1 hkey) (by simp [Form.keywords, Form.selectors])
  constructor
  case one_form =>
    intro f g hf hg
    rw [eq_of_readForm hform hf, eq_of_readForm hform hg]
  case own_keywords =>
    intro key hkey
    rcases hkeys key hkey with h | h | h | h
    · exact .inl h
    · exact .inr (.inl h)
    · exact .inr (.inr (.inl h))
    · exact .inr (.inr (.inr ⟨form, hown h, h⟩))
  case nullable => exact readFlag_isSome.1 ⟨nullable, hnullable⟩
  case metadata => exact readObject_isSome.1 ⟨metadata, hmetadata⟩
  case ref =>
    intro v hv
    obtain ⟨target, hget, htarget, -⟩ := readHead_ref.1 (hread (selects_of_get? .ref hv))
    rw [hv, Option.some.injEq] at hget
    exact ⟨target, htarget, hget⟩
  case type =>
    intro v hv
    obtain ⟨p, hget, -⟩ := readHead_type.1 (hread (selects_of_get? .type hv))
    rw [hv, Option.some.injEq] at hget
    exact ⟨p, hget⟩
  case enum =>
    intro v hv
    obtain ⟨values, hget, hne, hnodup, -⟩ := readHead_enum.1 (hread (selects_of_get? .enum hv))
    rw [hv, Option.some.injEq] at hget
    exact ⟨values, hget, hne, hnodup⟩
  case properties =>
    intro v hv
    obtain ⟨required, -, -, hrequired, -⟩ :=
      readHead_properties.1 (hread (selects_of_get? .properties hv))
    exact readObject_isSome.1 ⟨required, hrequired⟩ v hv
  case optionalProperties =>
    intro v hv
    obtain ⟨-, optional, -, -, hoptional, -⟩ :=
      readHead_properties.1 (hread (selects_of_get? .optionalProperties hv))
    exact readObject_isSome.1 ⟨optional, hoptional⟩ v hv
  case disjoint =>
    intro required optional hrequired hoptional
    obtain ⟨required', optional', -, hreq, hopt, hdisjoint, -⟩ :=
      readHead_properties.1 (hread (selects_of_get? .properties hrequired))
    simp only [readObject, hrequired, hoptional, Option.some.injEq] at hreq hopt
    subst hreq hopt
    exact hdisjoint
  case additionalProperties =>
    intro v hv
    have hsel : Selects members .properties := by
      rcases hkeys _ (Json.mem_keys_iff.2 ⟨v, hv⟩) with h | h | ⟨h, -⟩ | h
      · simp at h
      · simp at h
      · simp at h
      · exact eq_properties_of_ownKeyword h ▸ hown h
    obtain ⟨-, -, additional, -, -, -, hflag, -⟩ := readHead_properties.1 (hread hsel)
    exact ⟨readFlag_isSome.1 ⟨additional, hflag⟩ v hv, hsel⟩
  case discriminator =>
    intro v hv
    obtain ⟨tag, branches, hget, hmapping, hne, -⟩ :=
      readHead_discriminator.1 (hread (selects_of_get? .discriminator hv))
    rw [hv, Option.some.injEq] at hget
    exact ⟨tag, hget, branches, hmapping, hne⟩
  case mapping =>
    intro v hv
    rcases hkeys _ (Json.mem_keys_iff.2 ⟨v, hv⟩) with h | h | ⟨h, -⟩ | h
    · simp at h
    · simp at h
    · simp at h
    · exact eq_discriminator_of_ownKeyword h ▸ hown h

theorem LocalRules.exists_readHead (rules : LocalRules names site.isRoot members)
    (hsel : Selects members form) : ∃ head, readHead names site members form = .ok head := by
  obtain ⟨key, hkey, hs⟩ := hsel
  obtain ⟨v, hv⟩ := Json.mem_keys_iff.1 hkey
  have hproperties : ∃ head, readHead names site members .properties = .ok head := by
    obtain ⟨required, hrequired⟩ := readObject_isSome.2 rules.properties
    obtain ⟨optional, hoptional⟩ := readObject_isSome.2 rules.optionalProperties
    obtain ⟨additional, hflag⟩ :=
      readFlag_isSome.2 fun v hv => (rules.additionalProperties v hv).1
    refine ⟨_, readHead_properties.2
      ⟨required, optional, additional, hrequired, hoptional, ?_, hflag, rfl⟩⟩
    rcases readObject_eq_some.1 hrequired with hreq | ⟨-, rfl⟩
    · rcases readObject_eq_some.1 hoptional with hopt | ⟨-, rfl⟩
      · exact rules.disjoint required optional hreq hopt
      · simp [Json.keys]
    · simp [Json.keys]
  cases hs with
  | ref =>
    obtain ⟨target, htarget, rfl⟩ := rules.ref v hv
    exact ⟨_, readHead_ref.2 ⟨target, hv, htarget, rfl⟩⟩
  | type =>
    obtain ⟨p, rfl⟩ := rules.type v hv
    exact ⟨_, readHead_type.2 ⟨p, hv, rfl⟩⟩
  | enum =>
    obtain ⟨values, rfl, hne, hnodup⟩ := rules.enum v hv
    exact ⟨_, readHead_enum.2 ⟨values, hv, hne, hnodup, rfl⟩⟩
  | elements => exact ⟨_, rfl⟩
  | properties => exact hproperties
  | optionalProperties => exact hproperties
  | values => exact ⟨_, rfl⟩
  | discriminator =>
    obtain ⟨tag, rfl, branches, hmapping, hne⟩ := rules.discriminator v hv
    exact ⟨_, readHead_discriminator.2 ⟨tag, branches, hv, hmapping, hne, rfl⟩⟩

theorem LocalRules.exists_readInfo (rules : LocalRules names site.isRoot members) :
    ∃ info, readInfo site members = .ok info := by
  obtain ⟨nullable, hnullable⟩ := readFlag_isSome.2 rules.nullable
  obtain ⟨metadata, hmetadata⟩ := readObject_isSome.2 rules.metadata
  exact ⟨_, readInfo_eq_ok.2 ⟨nullable, metadata, hnullable, hmetadata, rfl⟩⟩

theorem LocalRules.exists_readSchema (rules : LocalRules names site.isRoot members) :
    ∃ info head, readSchema names site members = .ok (info, head) := by
  obtain ⟨info, hinfo⟩ := rules.exists_readInfo
  by_cases hsel : ∃ f, Selects members f
  · obtain ⟨form, hform⟩ := hsel
    obtain ⟨head, hhead⟩ := rules.exists_readHead hform
    refine ⟨info, head, readSchema_eq_ok.2 ⟨form, ?_, ?_, hinfo, hhead⟩⟩
    · exact readForm_eq_ok.2 (.inl ⟨hform, fun g hg => rules.one_form g form hg hform⟩)
    · refine checkKeywords_eq_ok.2 fun key hkey => ?_
      rcases rules.own_keywords key hkey with h | h | h | ⟨f, hf, h⟩
      · exact .inl h
      · exact .inr (.inl h)
      · exact .inr (.inr (.inl h))
      · exact .inr (.inr (.inr (rules.one_form f form hf hform ▸ h)))
  · have hnone : ∀ f, ¬ Selects members f := fun f hf => hsel ⟨f, hf⟩
    refine ⟨info, .empty, readSchema_eq_ok.2 ⟨.empty, ?_, ?_, hinfo, rfl⟩⟩
    · refine readForm_eq_ok.2 (.inr ⟨rfl, hnone, fun hkey => ?_, fun hkey => ?_⟩)
      · obtain ⟨v, hv⟩ := Json.mem_keys_iff.1 hkey
        exact hnone _ (rules.additionalProperties v hv).2
      · obtain ⟨v, hv⟩ := Json.mem_keys_iff.1 hkey
        exact hnone _ (rules.mapping v hv)
    · refine checkKeywords_eq_ok.2 fun key hkey => ?_
      rcases rules.own_keywords key hkey with h | h | h | ⟨f, hf, -⟩
      · exact .inl h
      · exact .inr (.inl h)
      · exact .inr (.inr (.inl h))
      · exact absurd hf (hnone f)

end

end Typegen.Schema
