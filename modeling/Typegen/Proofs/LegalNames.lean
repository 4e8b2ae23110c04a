import Typegen.Proofs.Candidates
import Typegen.Proofs.Spelling
import Typegen.Target.Basic
import Typegen.Text.Identifier

/-!
# Identifiers are legal

An identifier that every target language accepts begins with a letter or an underscore, and letters,
digits and underscores follow.  Whatever characters the keys of a schema have, all identifiers of a
scope whose names are put into a case are of that kind: a text without words gives way to a fallback,
a digit in front is hidden behind a prefix, and neither a suffix nor a number nor a limit, as long as
it leaves room for one character, does harm (`legal_of_claim`).  Without a limit a table of names is
always found (`exists_assign`).
-/

namespace Typegen.Text

/-! ## Legal identifiers -/

variable {cs : List Char} {c : Char}

theorem isIdentifierTail_iff : isIdentifierTail c = true ↔ isWordChar c = true ∨ c = '_' := by
  simp only [isIdentifierTail, isIdentifierHead, isWordChar, Bool.or_eq_true, beq_iff_eq]
  tauto

theorem isDigit_eq_false_of_isIdentifierHead (h : isIdentifierHead c = true) :
    isDigit c = false := by
  simp only [isIdentifierHead, isCapital, isSmall, Bool.or_eq_true, Bool.and_eq_true,
    decide_eq_true_eq, beq_iff_eq, Char.le_def, UInt32.le_iff_toNat_le] at h
  rw [Bool.eq_false_iff]
  simp only [isDigit, ne_eq, Bool.and_eq_true, decide_eq_true_eq, Char.le_def,
    UInt32.le_iff_toNat_le]
  rintro ⟨hlow, hhigh⟩
  rcases h with (h | h) | rfl
  · have hcapital : 65 ≤ c.val.toNat := h.1
    have hdigit : c.val.toNat ≤ 57 := hhigh
    omega
  · have hsmall : 97 ≤ c.val.toNat := h.1
    have hdigit : c.val.toNat ≤ 57 := hhigh
    omega
  · exact absurd hhigh (by decide)

/-- A legal identifier is a plain text that begins with a character other than a digit. -/
theorem isPlainIdentifier_cons_iff :
    isPlainIdentifier (c :: cs) = true ↔ Plain (c :: cs) ∧ isDigit c = false := by
  simp only [isPlainIdentifier, Plain, Bool.and_eq_true, List.all_eq_true, isIdentifierTail_iff,
    List.forall_mem_cons]
  constructor
  · rintro ⟨hhead, htail⟩
    have hdigit := isDigit_eq_false_of_isIdentifierHead hhead
    exact ⟨⟨isIdentifierTail_iff.1 (by simp [isIdentifierTail, hhead]), htail⟩, hdigit⟩
  · rintro ⟨⟨hhead, htail⟩, hdigit⟩
    have hchar := isIdentifierTail_iff.2 hhead
    simp only [isIdentifierTail, hdigit, Bool.or_false] at hchar
    exact ⟨hchar, htail⟩

theorem plain_of_isPlainIdentifier (h : isPlainIdentifier cs = true) : Plain cs := by
  cases cs with
  | nil => cases h
  | cons c cs => exact (isPlainIdentifier_cons_iff.1 h).1

theorem notMem_of_isPlainIdentifier (h : isPlainIdentifier cs = true)
    (hc : isIdentifierTail c = false) : c ∉ cs := by
  intro hmem
  rw [isIdentifierTail_iff.2 (plain_of_isPlainIdentifier h c hmem)] at hc
  cases hc

theorem isPlainIdentifier_append {ds : List Char} (h : isPlainIdentifier cs = true) (hds : Plain ds) :
    isPlainIdentifier (cs ++ ds) = true := by
  cases cs with
  | nil => cases h
  | cons c cs =>
    obtain ⟨hplain, hdigit⟩ := isPlainIdentifier_cons_iff.1 h
    exact isPlainIdentifier_cons_iff.2 ⟨hplain.append hds, hdigit⟩

/-- What is left of an identifier that is cut is one, if anything is left. -/
theorem isPlainIdentifier_take (h : isPlainIdentifier cs = true) {n : Nat} (hn : 0 < n) :
    isPlainIdentifier (cs.take n) = true := by
  cases cs with
  | nil => cases h
  | cons c cs =>
    obtain ⟨n, rfl⟩ := Nat.exists_eq_succ_of_ne_zero (Nat.ne_of_gt hn)
    obtain ⟨hplain, hdigit⟩ := isPlainIdentifier_cons_iff.1 h
    exact isPlainIdentifier_cons_iff.2 ⟨hplain.mono (List.take_subset (n + 1) (c :: cs)), hdigit⟩

end Typegen.Text

namespace Typegen.Naming

open Schema (Node)
open Text (Plain isPlainIdentifier isPlainIdentifier_append isPlainIdentifier_take)

/-! ## Identifiers that are handed out -/

theorem legal_truncate {limit : Option Int} (hlimit : ∀ l ∈ limit, 1 ≤ l) {name : String}
    (h : isPlainIdentifier name.toList = true) :
    isPlainIdentifier (truncate limit name).toList = true := by
  cases limit with
  | none => exact h
  | some l =>
    have hl : 1 ≤ l := hlimit l rfl
    rw [truncate, String.toList_ofList, cutChars, if_pos (by omega)]
    exact isPlainIdentifier_take h (by omega)

variable {id raw : String} {path : Option String} {taken : List String}
  {members : List (String × String)}

theorem legal_numbered {limit : Option Int} {base : String} {n : Nat}
    (hbase : isPlainIdentifier base.toList = true) (h : numbered limit base n = some id) :
    isPlainIdentifier id.toList = true := by
  simp only [numbered] at h
  split at h
  · cases h
    rw [String.toList_append]
    exact isPlainIdentifier_append hbase (plain_numberText n)
  · next l =>
    split at h
    · cases h
    · next hfits =>
      cases h
      rw [String.toList_append]
      refine isPlainIdentifier_append (legal_truncate (fun l' hl' => ?_) hbase) (plain_numberText n)
      obtain rfl := Option.some.inj hl'
      omega

/-- A namespace hands out legal identifiers for legal names. -/
theorem legal_of_claim {ns ns' : Namespace} {name : String} (h : ns.claim name path = .ok (id, ns'))
    (hname : isPlainIdentifier name.toList = true)
    (hsuffix : ∀ suffix, ns.escapeSuffix = .string suffix → Plain suffix.toList)
    (hlimit : ∀ limit, lengthLimit ns.maxLength = .ok limit → ∀ l ∈ limit, 1 ≤ l) :
    isPlainIdentifier id.toList = true := by
  refine Namespace.holds_of_claim (P := fun text => isPlainIdentifier text.toList = true) h hname
    (fun limit heq text => legal_truncate (hlimit limit heq)) (fun suffix heq text htext => ?_)
    fun limit base n id hbase => legal_numbered hbase
  rw [String.toList_append]
  exact isPlainIdentifier_append htext (hsuffix suffix heq)

/-! ## Names before they are claimed -/

/-- What the rules add to a name is legal where they add it, and a limit leaves room for a
character. -/
structure Rules.SpellsLegally (r : Rules) : Prop where
  escapeSuffix : ∃ text, r.escapeSuffix = .string text ∧
    ∀ c ∈ text.toList, Text.isIdentifierTail c = true
  digitPrefix : ∃ text, r.digitPrefix = .string text ∧ isPlainIdentifier text.toList = true
  maxLength : ∃ limit, lengthLimit r.maxLength = .ok limit ∧ ∀ l ∈ limit, 1 ≤ l

variable {r : Rules}

theorem Rules.SpellsLegally.legal_of_claim (hr : r.SpellsLegally) {reserved : WordSet}
    {left : Namespace}
    (h : ({ r.freshNames reserved with taken := taken } : Namespace).claim raw path =
      .ok (id, left)) (hraw : isPlainIdentifier raw.toList = true) :
    isPlainIdentifier id.toList = true := by
  obtain ⟨suffix, hsuffix, hplain⟩ := hr.escapeSuffix
  obtain ⟨limit, hlimit, hroom⟩ := hr.maxLength
  refine Naming.legal_of_claim h hraw (fun text htext c hc => ?_) fun limit' hlimit' => ?_
  · obtain rfl := Json.string.inj (hsuffix.symm.trans htext)
    exact Text.isIdentifierTail_iff.1 (hplain c hc)
  · obtain rfl := Except.ok.inj (hlimit.symm.trans hlimit')
    exact hroom

/-- The words that stand in for names without words are legal in every case. -/
theorem legal_fallback {convention : Text.Case} (h : convention ≠ .preserve) :
    ∀ fallback ∈ ["Type", "field", "Empty"],
      isPlainIdentifier (convention.convert fallback).toList = true := by
  cases convention with
  | preserve => exact absurd rfl h
  | pascal | camel | snake | screamingSnake => decide +kernel

theorem legal_finish (hr : r.SpellsLegally) {convention : Text.Case}
    (hcase : convention ≠ .preserve) {fallback text : String}
    (hfallback : fallback ∈ ["Type", "field", "Empty"]) (htext : Plain text.toList)
    (h : r.finish convention fallback text = .ok raw) : isPlainIdentifier raw.toList = true := by
  obtain ⟨id, hid, hraw⟩ := finish_eq_ok hcase h
  -- A text without words is replaced, so there is a first character.
  obtain ⟨c, cs, hchars, hplain⟩ : ∃ c cs, id.toList = c :: cs ∧ Plain id.toList := by
    split at hid
    · have hlegal := legal_fallback hcase fallback hfallback
      rw [← hid] at hlegal
      obtain ⟨c, cs, hchars⟩ := List.exists_cons_of_ne_nil (l := id.toList) (by
        rintro hnil
        rw [hnil] at hlegal
        cases hlegal)
      exact ⟨c, cs, hchars, Text.plain_of_isPlainIdentifier hlegal⟩
    · next hne =>
      obtain ⟨c, cs, hchars⟩ := List.exists_cons_of_ne_nil (mt String.toList_eq_nil_iff.1 hne)
      exact ⟨c, cs, hid ▸ hchars, hid ▸ htext⟩
  rcases hraw with ⟨rfl, hdigit⟩ | ⟨digits, heq, rfl⟩
  · rw [hchars] at hplain ⊢
    exact Text.isPlainIdentifier_cons_iff.2 ⟨hplain, hdigit c cs hchars⟩
  · obtain ⟨digits', heq', hlegal⟩ := hr.digitPrefix
    cases heq'.symm.trans heq
    rw [String.toList_append]
    exact isPlainIdentifier_append hlegal hplain

/-! ## Scopes -/

theorem legal_typeIdentifier (hr : r.SpellsLegally) (hcase : r.typeCase ≠ .preserve)
    {segments : List String} {fallback : String} (hfallback : fallback ∈ ["Type", "field", "Empty"])
    (h : r.typeIdentifier segments fallback = .ok raw) : isPlainIdentifier raw.toList = true :=
  legal_finish hr hcase hfallback (plain_typeText hcase segments) h

theorem Rules.ClaimsType.legal (hr : r.SpellsLegally) (hcase : r.typeCase ≠ .preserve)
    (h : r.ClaimsType id) : isPlainIdentifier id.toList = true := by
  obtain ⟨taken, segments, raw, path, left, hraw, hclaim⟩ := h
  exact hr.legal_of_claim hclaim (legal_typeIdentifier hr hcase (by simp) hraw)

theorem legal_fieldIdentifier (hr : r.SpellsLegally) (hcase : r.fieldCase ≠ .preserve)
    {key : String} (h : r.fieldIdentifier key = .ok raw) : isPlainIdentifier raw.toList = true :=
  legal_finish hr hcase (by simp) (Text.plain_convert hcase key) h

/-- An identifier that was claimed for a field or a tag. -/
def Rules.ClaimsField (r : Rules) (id : String) : Prop :=
  ∃ taken key raw path left, r.fieldIdentifier key = .ok raw ∧
    ({ r.freshNames r.fieldReserved with taken := taken } : Namespace).claim raw path =
      .ok (id, left)

/-- An identifier that was claimed for a member of an enumeration, named like a type or not. -/
def Rules.ClaimsMember (r : Rules) (id : String) : Prop :=
  ∃ taken raw path left,
    ((r.qualifyMembers.isTruthy = true ∧
        ∃ segments, r.typeIdentifier segments "Empty" = .ok raw) ∨
      (¬r.qualifyMembers.isTruthy = true ∧ ∃ value, r.memberIdentifier value = .ok raw)) ∧
    ({ r.freshNames r.reserved with taken := taken } : Namespace).claim raw path = .ok (id, left)

/-- The case of the scope that members of enumerations are named in. -/
def Rules.memberScopeCase (r : Rules) : Text.Case :=
  if r.qualifyMembers.isTruthy then r.typeCase else r.memberCase

theorem Rules.ClaimsField.legal (hr : r.SpellsLegally) (hcase : r.fieldCase ≠ .preserve)
    (h : r.ClaimsField id) : isPlainIdentifier id.toList = true := by
  obtain ⟨taken, key, raw, path, left, hraw, hclaim⟩ := h
  exact hr.legal_of_claim hclaim (legal_fieldIdentifier hr hcase hraw)

theorem Rules.ClaimsField.notMem_reserved (h : r.ClaimsField id) : id ∉ r.fieldReserved.words := by
  obtain ⟨taken, key, raw, path, left, -, hclaim⟩ := h
  exact (Namespace.isFree_iff.1 (Namespace.claim_spec hclaim).1).2

theorem Rules.ClaimsMember.legal (hr : r.SpellsLegally) (hcase : r.memberScopeCase ≠ .preserve)
    (h : r.ClaimsMember id) : isPlainIdentifier id.toList = true := by
  obtain ⟨taken, raw, path, left, hraw, hclaim⟩ := h
  refine hr.legal_of_claim hclaim ?_
  rcases hraw with ⟨hqualify, segments, hraw⟩ | ⟨hqualify, value, hraw⟩
  · rw [memberScopeCase, if_pos hqualify] at hcase
    exact legal_typeIdentifier hr hcase (by simp) hraw
  · rw [memberScopeCase, if_neg hqualify] at hcase
    exact legal_finish hr hcase (by simp) (Text.plain_convert hcase value) hraw

theorem Rules.ClaimsMember.notMem_reserved (h : r.ClaimsMember id) : id ∉ r.reserved.words := by
  obtain ⟨taken, raw, path, left, -, hclaim⟩ := h
  exact (Namespace.isFree_iff.1 (Namespace.claim_spec hclaim).1).2

theorem claimsField_of_nameFields {keys : List String} {fields : List FieldName}
    (h : nameFields r { r.freshNames r.fieldReserved with taken := taken } path keys =
      .ok fields) : ∀ f ∈ fields, r.ClaimsField f.identifier := by
  induction keys generalizing taken fields with
  | nil =>
    rw [nameFields, Except.ok.injEq] at h
    simp [← h]
  | cons key keys ih =>
    simp only [nameFields, bind_eq_ok, pure_eq_ok] at h
    obtain ⟨raw, hraw, ⟨id, own⟩, hclaim, rest, hrest, rfl⟩ := h
    have hid : r.ClaimsField id := ⟨taken, key, raw, path, own, hraw, hclaim⟩
    obtain ⟨-, rfl, -⟩ := Namespace.claim_spec hclaim
    exact List.forall_mem_cons.2 ⟨hid, ih hrest⟩

theorem claimsMember_of_nameQualified (hqualify : r.qualifyMembers.isTruthy = true)
    {segments values : List String} {left : Namespace}
    (h : nameQualified r { r.freshNames r.reserved with taken := taken } path segments values =
      .ok (members, left)) : ∀ m ∈ members, r.ClaimsMember m.2 := by
  induction values generalizing taken members left with
  | nil =>
    rw [nameQualified, Except.ok.injEq, Prod.mk.injEq] at h
    simp [← h.1]
  | cons value values ih =>
    simp only [nameQualified, bind_eq_ok, pure_eq_ok, Prod.mk.injEq] at h
    obtain ⟨raw, hraw, ⟨id, types⟩, hclaim, ⟨rest, left'⟩, hrest, rfl, -⟩ := h
    have hid : r.ClaimsMember id :=
      ⟨taken, raw, path, types, .inl ⟨hqualify, _, hraw⟩, hclaim⟩
    obtain ⟨-, rfl, -⟩ := Namespace.claim_spec hclaim
    exact List.forall_mem_cons.2 ⟨hid, ih hrest⟩

theorem claimsMember_of_nameMembers (hqualify : ¬r.qualifyMembers.isTruthy = true)
    {values : List String}
    (h : nameMembers r { r.freshNames r.reserved with taken := taken } path values =
      .ok members) : ∀ m ∈ members, r.ClaimsMember m.2 := by
  induction values generalizing taken members with
  | nil =>
    rw [nameMembers, Except.ok.injEq] at h
    simp [← h]
  | cons value values ih =>
    simp only [nameMembers, bind_eq_ok, pure_eq_ok] at h
    obtain ⟨raw, hraw, ⟨id, own⟩, hclaim, rest, hrest, rfl⟩ := h
    have hid : r.ClaimsMember id := ⟨taken, raw, path, own, .inr ⟨hqualify, value, hraw⟩, hclaim⟩
    obtain ⟨-, rfl, -⟩ := Namespace.claim_spec hclaim
    exact List.forall_mem_cons.2 ⟨hid, ih hrest⟩

theorem Rules.NamedAt.claimsField {names : Names} (h : r.NamedAt names) :
    (∀ fields, names.fields? = some fields → ∀ f ∈ fields, r.ClaimsField f.identifier) ∧
    ∀ f, names.tag? = some f → r.ClaimsField f.identifier := by
  obtain ⟨taken, s, left, hsite, -⟩ := h
  cases namedBy_of_nameSite hsite with
  | qualified | enum => simp [Names.fields?, Names.tag?]
  | struct htype hfields =>
    refine ⟨fun fields heq => ?_, by simp [Names.tag?]⟩
    obtain rfl := Option.some.inj heq
    exact claimsField_of_nameFields hfields
  | union htype hraw hclaim =>
    refine ⟨by simp [Names.fields?], fun f heq => ?_⟩
    obtain rfl := Option.some.inj heq
    exact ⟨_, _, _, _, _, hraw, hclaim⟩

theorem Rules.NamedAt.claimsMember {names : Names} (h : r.NamedAt names)
    (hmembers : names.members? = some members) : ∀ m ∈ members, r.ClaimsMember m.2 := by
  obtain ⟨taken, s, left, hsite, -⟩ := h
  cases namedBy_of_nameSite hsite with
  | qualified htype hqualify hnames =>
    obtain rfl := Option.some.inj hmembers
    obtain ⟨taken', rfl⟩ := exists_taken_of_nameType htype
    exact claimsMember_of_nameQualified hqualify hnames
  | enum htype hqualify hnames =>
    obtain rfl := Option.some.inj hmembers
    exact claimsMember_of_nameMembers hqualify hnames
  | struct | union => cases hmembers

/-! ## Tables -/

namespace Table

/-- The identifiers of types: of the root, the definitions and what the nodes declare. -/
def typeNames (t : Table) : List String :=
  t.root :: (t.definitions.map Prod.snd ++ t.types.map Prod.snd)

/-- The identifiers of fields and tags. -/
def fieldNames (t : Table) : List String :=
  ((t.select Names.fields?).flatMap Prod.snd ++ (t.select Names.tag?).map Prod.snd).map
    FieldName.identifier

theorem mem_select {α : Type} {t : Table} {part : Names → Option α} {e : Pointer × α} :
    e ∈ t.select part ↔ ∃ names, (e.1, names) ∈ t.nodes ∧ part names = some e.2 := by
  simp only [select, List.mem_filterMap, Option.map_eq_some_iff, Prod.exists]
  constructor
  · rintro ⟨path, names, hmem, a, ha, rfl⟩
    exact ⟨names, hmem, ha⟩
  · rintro ⟨names, hmem, ha⟩
    exact ⟨e.1, names, hmem, e.2, ha, rfl⟩

end Table

section Legal

variable {schema : Schema} {rootName : Json} {t : Table}

theorem claimsType_of_mem_typeNames (h : assign r schema rootName = .ok t) :
    ∀ id ∈ t.typeNames, r.ClaimsType id := by
  obtain ⟨hdefinitions, hroot, hnodes⟩ := claimsType_of_assign h
  refine List.forall_mem_cons.2 ⟨hroot, fun id hid => ?_⟩
  rcases List.mem_append.1 hid with hid | hid
  · obtain ⟨i, hi, rfl⟩ := List.mem_map.1 hid
    exact hdefinitions i hi
  · obtain ⟨e, he, rfl⟩ := List.mem_map.1 hid
    rw [Table.types_eq] at he
    obtain ⟨e', he', rfl⟩ := List.mem_map.1 he
    exact hnodes e' he'

theorem legal_typeNames (hr : r.SpellsLegally) (hcase : r.typeCase ≠ .preserve)
    (h : assign r schema rootName = .ok t) :
    ∀ id ∈ t.typeNames, isPlainIdentifier id.toList = true :=
  fun id hid => (claimsType_of_mem_typeNames h id hid).legal hr hcase

theorem claimsField_of_mem_fieldNames (h : assign r schema rootName = .ok t) :
    ∀ id ∈ t.fieldNames, r.ClaimsField id := by
  obtain ⟨-, -, hnodes⟩ := namedAt_of_assign h
  intro id hid
  obtain ⟨f, hf, rfl⟩ := List.mem_map.1 hid
  rcases List.mem_append.1 hf with hf | hf
  · obtain ⟨e, he, hf⟩ := List.mem_flatMap.1 hf
    obtain ⟨names, hnames, hfields⟩ := Table.mem_select.1 he
    exact (hnodes _ hnames).claimsField.1 e.2 hfields f hf
  · obtain ⟨e, he, rfl⟩ := List.mem_map.1 hf
    obtain ⟨names, hnames, htag⟩ := Table.mem_select.1 he
    exact (hnodes _ hnames).claimsField.2 e.2 htag

theorem claimsMember_of_mem_allMembers (h : assign r schema rootName = .ok t) :
    ∀ id ∈ t.allMembers, r.ClaimsMember id := by
  obtain ⟨-, -, hnodes⟩ := namedAt_of_assign h
  intro id hid
  obtain ⟨e, he, hid⟩ := List.mem_flatMap.1 hid
  obtain ⟨m, hm, rfl⟩ := List.mem_map.1 hid
  obtain ⟨names, hnames, hmembers⟩ := Table.mem_select.1 he
  exact (hnodes _ hnames).claimsMember hmembers m hm

theorem legal_fieldNames (hr : r.SpellsLegally) (hcase : r.fieldCase ≠ .preserve)
    (h : assign r schema rootName = .ok t) :
    ∀ id ∈ t.fieldNames, isPlainIdentifier id.toList = true :=
  fun id hid => (claimsField_of_mem_fieldNames h id hid).legal hr hcase

theorem legal_allMembers (hr : r.SpellsLegally) (hcase : r.memberScopeCase ≠ .preserve)
    (h : assign r schema rootName = .ok t) :
    ∀ id ∈ t.allMembers, isPlainIdentifier id.toList = true :=
  fun id hid => (claimsMember_of_mem_allMembers h id hid).legal hr hcase

end Legal

/-! ## Naming without a limit -/

/-- Names are never cut, and what is put before and behind them are texts. -/
structure Rules.Unbounded (r : Rules) : Prop where
  escapeSuffix : ∃ text, r.escapeSuffix = .string text
  digitPrefix : ∃ text, r.digitPrefix = .string text
  maxLength : r.maxLength = .null

section Unbounded

variable (hr : r.Unbounded) (taken : List String) (path : Option String)
include hr

theorem exists_claim (reserved : WordSet) (raw : String) : ∃ id,
    ({ r.freshNames reserved with taken := taken } : Namespace).claim raw path =
      .ok (id, { r.freshNames reserved with taken := id :: taken }) := by
  obtain ⟨suffix, hsuffix⟩ := hr.escapeSuffix
  have hnames : r.freshNames reserved = Namespace.fresh reserved.words suffix none := by
    rw [Rules.freshNames, hsuffix, hr.maxLength]
    rfl
  obtain ⟨id, hid⟩ := Namespace.exists_firstFree
    { Namespace.fresh reserved.words suffix none with taken := taken }
    (baseFor reserved.words suffix none raw)
  rw [hnames]
  exact ⟨id, Namespace.claim_of_firstFree path hid⟩

theorem exists_finish (convention : Text.Case) (fallback text : String) :
    ∃ raw, r.finish convention fallback text = .ok raw := by
  obtain ⟨text', htext'⟩ := hr.digitPrefix
  unfold Rules.finish
  split
  · exact ⟨_, rfl⟩
  · dsimp only
    split
    · split
      · rw [htext']
        exact ⟨_, rfl⟩
      · exact ⟨_, rfl⟩
    · exact ⟨_, rfl⟩

theorem exists_nameFields (keys : List String) : ∃ fields,
    nameFields r { r.freshNames r.fieldReserved with taken := taken } path keys = .ok fields := by
  induction keys generalizing taken with
  | nil => exact ⟨[], rfl⟩
  | cons key keys ih =>
    obtain ⟨raw, hraw⟩ : ∃ raw, r.fieldIdentifier key = .ok raw := exists_finish hr ..
    obtain ⟨id, hclaim⟩ := exists_claim hr taken path r.fieldReserved raw
    obtain ⟨fields, hfields⟩ := ih (id :: taken)
    simp only [nameFields, bind_eq_ok]
    exact ⟨_, raw, hraw, _, hclaim, fields, hfields, rfl⟩

theorem exists_nameQualified (segments values : List String) : ∃ members taken',
    nameQualified r { r.freshNames r.reserved with taken := taken } path segments values =
      .ok (members, { r.freshNames r.reserved with taken := taken' }) := by
  induction values generalizing taken with
  | nil => exact ⟨[], taken, rfl⟩
  | cons value values ih =>
    obtain ⟨raw, hraw⟩ : ∃ raw, r.typeIdentifier (segments ++ [value]) "Empty" = .ok raw :=
      exists_finish hr ..
    obtain ⟨id, hclaim⟩ := exists_claim hr taken path r.reserved raw
    obtain ⟨members, taken', hmembers⟩ := ih (id :: taken)
    simp only [nameQualified, bind_eq_ok]
    exact ⟨_, taken', raw, hraw, _, hclaim, _, hmembers, rfl⟩

theorem exists_nameMembers (values : List String) : ∃ members,
    nameMembers r { r.freshNames r.reserved with taken := taken } path values = .ok members := by
  induction values generalizing taken with
  | nil => exact ⟨[], rfl⟩
  | cons value values ih =>
    obtain ⟨raw, hraw⟩ : ∃ raw, r.memberIdentifier value = .ok raw := exists_finish hr ..
    obtain ⟨id, hclaim⟩ := exists_claim hr taken path r.reserved raw
    obtain ⟨members, hmembers⟩ := ih (id :: taken)
    simp only [nameMembers, bind_eq_ok]
    exact ⟨_, raw, hraw, _, hclaim, members, hmembers, rfl⟩

theorem exists_nameType (s : Site) : ∃ type taken',
    nameType r { r.freshNames r.reserved with taken := taken } s =
      .ok (type, { r.freshNames r.reserved with taken := taken' }) := by
  unfold nameType
  split
  · exact ⟨_, taken, rfl⟩
  · obtain ⟨raw, hraw⟩ : ∃ raw, r.typeIdentifier s.segments = .ok raw := exists_finish hr ..
    obtain ⟨id, hclaim⟩ := exists_claim hr taken (some s.node.path.text) r.reserved raw
    exact ⟨id, _, bind_eq_ok.2 ⟨raw, hraw, hclaim⟩⟩

theorem exists_nameSite (s : Site) : ∃ names taken',
    nameSite r { r.freshNames r.reserved with taken := taken } s =
      .ok (names, { r.freshNames r.reserved with taken := taken' }) := by
  obtain ⟨type, taken', htype⟩ := exists_nameType hr taken s
  unfold nameSite
  split
  · next values _ =>
    by_cases hqualify : r.qualifyMembers.isTruthy = true
    · obtain ⟨members, taken'', hmembers⟩ :=
        exists_nameQualified hr taken' (some s.node.path.text) s.segments values
      refine ⟨some (.enum type members), taken'', bind_eq_ok.2 ⟨_, htype, ?_⟩⟩
      dsimp only
      rw [if_pos hqualify]
      exact bind_eq_ok.2 ⟨_, hmembers, rfl⟩
    · obtain ⟨members, hmembers⟩ := exists_nameMembers hr [] (some s.node.path.text) values
      refine ⟨some (.enum type members), taken', bind_eq_ok.2 ⟨_, htype, ?_⟩⟩
      dsimp only
      rw [if_neg hqualify]
      exact bind_eq_ok.2 ⟨members, hmembers, rfl⟩
  · next required optional _ _ =>
    obtain ⟨fields, hfields⟩ := exists_nameFields hr [] (some s.node.path.text)
      (s.tag.toList ++ (required ++ optional).map Prod.fst)
    exact ⟨_, taken', bind_eq_ok.2 ⟨_, htype, bind_eq_ok.2 ⟨fields, hfields, rfl⟩⟩⟩
  · next tag _ _ =>
    obtain ⟨raw, hraw⟩ : ∃ raw, r.fieldIdentifier tag = .ok raw := exists_finish hr ..
    obtain ⟨id, hclaim⟩ := exists_claim hr [] (some s.node.path.text) r.fieldReserved raw
    exact ⟨_, taken', bind_eq_ok.2 ⟨_, htype, bind_eq_ok.2 ⟨raw, hraw,
      bind_eq_ok.2 ⟨_, hclaim, rfl⟩⟩⟩⟩
  · exact ⟨none, taken, rfl⟩

theorem exists_nameSites (ss : List Site) : ∃ nodes taken',
    nameSites r { r.freshNames r.reserved with taken := taken } ss =
      .ok (nodes, { r.freshNames r.reserved with taken := taken' }) := by
  induction ss generalizing taken with
  | nil => exact ⟨[], taken, rfl⟩
  | cons s rest ih =>
    obtain ⟨names, taken', hsite⟩ := exists_nameSite hr taken s
    obtain ⟨others, taken'', hothers⟩ := ih taken'
    simp only [nameSites, bind_eq_ok]
    exact ⟨_, taken'', _, hsite, _, hothers, rfl⟩

theorem exists_nameBody (name : String) (body : Node) : ∃ id nodes taken',
    nameBody r { r.freshNames r.reserved with taken := taken } name body =
      .ok (id, nodes, { r.freshNames r.reserved with taken := taken' }) := by
  obtain ⟨raw, hraw⟩ : ∃ raw, r.typeIdentifier [name] = .ok raw := exists_finish hr ..
  obtain ⟨id, hclaim⟩ := exists_claim hr taken (some body.path.text) r.reserved raw
  obtain ⟨nodes, taken', hnodes⟩ := exists_nameSites hr (id :: taken)
    (sites [{ node := body, segments := [name], given := id }])
  simp only [nameBody, bind_eq_ok]
  exact ⟨id, nodes, taken', raw, hraw, _, hclaim, _, hnodes, rfl⟩

theorem exists_nameDefinitions (entries : List (String × Node)) : ∃ ids nodes taken',
    nameDefinitions r { r.freshNames r.reserved with taken := taken } entries =
      .ok (ids, nodes, { r.freshNames r.reserved with taken := taken' }) := by
  induction entries generalizing taken with
  | nil => exact ⟨[], [], taken, rfl⟩
  | cons e entries ih =>
    obtain ⟨id, own, taken', hbody⟩ := exists_nameBody hr taken e.1 e.2
    obtain ⟨ids, others, taken'', hrest⟩ := ih taken'
    simp only [nameDefinitions, bind_eq_ok]
    exact ⟨_, _, taken'', _, hbody, _, hrest, rfl⟩

omit taken path

/-- Without a limit every schema has a table of names. -/
theorem exists_assign (schema : Schema) (rootName : String) :
    ∃ t, assign r schema (.string rootName) = .ok t := by
  obtain ⟨ids, nodes, taken, hdefinitions⟩ := exists_nameDefinitions hr [] schema.definitions
  obtain ⟨id, others, taken', hroot⟩ := exists_nameBody hr taken rootName schema.root
  simp only [assign, bind_eq_ok]
  exact ⟨_, _, hdefinitions, rootName, rfl, _, hroot, rfl⟩

end Unbounded

/-! ## Legal tables -/

theorem isIdentifierTail_underscore : ∀ c ∈ "_".toList, Text.isIdentifierTail c = true := by
  simp [Text.isIdentifierTail, Text.isIdentifierHead]

theorem spellsLegally_rules (target : Target) : target.rules.SpellsLegally := by
  cases target with
  | typescript | java | python =>
    exact ⟨⟨"_", rfl, isIdentifierTail_underscore⟩, ⟨"_", rfl, by decide⟩, ⟨none, rfl, by simp⟩⟩
  | go =>
    exact ⟨⟨"_", rfl, isIdentifierTail_underscore⟩, ⟨"N", rfl, by decide⟩, ⟨none, rfl, by simp⟩⟩

theorem unbounded_rules (target : Target) : target.rules.Unbounded := by
  cases target with
  | typescript | java | python => exact ⟨⟨"_", rfl⟩, ⟨"_", rfl⟩, rfl⟩
  | go => exact ⟨⟨"_", rfl⟩, ⟨"N", rfl⟩, rfl⟩

/-- Whatever characters the keys, the values and the name of the root have, every identifier is legal
that is named in a scope whose names are put into a case.  The rules of the targets name every
schema, and only fields in TypeScript keep their spelling. -/
theorem legal_of_assign (schema : Schema) (rootName : String) :
    (∀ (r : Rules) (t : Table), r.SpellsLegally → assign r schema (.string rootName) = .ok t →
      (r.typeCase ≠ .preserve →
        ∀ id ∈ t.typeNames, isPlainIdentifier id.toList = true) ∧
      (r.fieldCase ≠ .preserve →
        ∀ id ∈ t.fieldNames, isPlainIdentifier id.toList = true) ∧
      (r.memberScopeCase ≠ .preserve →
        ∀ id ∈ t.allMembers, isPlainIdentifier id.toList = true)) ∧
    ∀ target : Target, ∃ t, assign target.rules schema (.string rootName) = .ok t ∧
      (∀ id ∈ t.typeNames ++ t.allMembers, isPlainIdentifier id.toList = true) ∧
      (target ≠ .typescript → ∀ id ∈ t.fieldNames, isPlainIdentifier id.toList = true) := by
  refine ⟨fun r t hr h => ⟨fun hcase => legal_typeNames hr hcase h, fun hcase =>
    legal_fieldNames hr hcase h, fun hcase => legal_allMembers hr hcase h⟩, fun target => ?_⟩
  have hr := spellsLegally_rules target
  obtain ⟨t, h⟩ := exists_assign (unbounded_rules target) schema rootName
  have htypes : target.rules.typeCase ≠ .preserve := by cases target <;> decide
  have hmembers : target.rules.memberScopeCase ≠ .preserve := by cases target <;> decide
  refine ⟨t, h, fun id hid => ?_, fun htarget => legal_fieldNames hr ?_ h⟩
  · rcases List.mem_append.1 hid with hid | hid
    · exact legal_typeNames hr htypes h id hid
    · exact legal_allMembers hr hmembers h id hid
  · cases target with
    | typescript => exact absurd rfl htarget
    | go | java | python => decide

/-- A schema of keys and values that leave no word or a word with a digit in front. -/
def oddSchema : Schema where
  definitions := [("2d", .enum ⟨⟨["definitions", "2d"]⟩, false, some "2d", []⟩ ["", "é", "1"])]
  root := .discriminator ⟨⟨[]⟩, false, none, []⟩ "%" [
    ("a", .properties ⟨⟨["mapping", "a"]⟩, false, none, []⟩
      [("é", .empty ⟨⟨["mapping", "a", "properties", "é"]⟩, false, none, []⟩),
        ("3", .ref ⟨⟨["mapping", "a", "properties", "3"]⟩, false, none, []⟩ "2d")] [] false)]

/-- Rules that reserve a word and leave two characters of a name. -/
def oddRules : Rules where
  separator := .underscore
  reserved := ⟨["Ty"], []⟩
  maxLength := .int 2
  digitPrefix := .string "N1"
  ownFieldCase := some .snake
  memberCase := .screamingSnake

/-- The names of the schema by these rules. -/
def oddNames : Table where
  root := "T2"
  definitions := [("2d", "N1")]
  nodes := [
    (⟨["definitions", "2d"]⟩, .enum "N1" [("", "EM"), ("é", "E2"), ("1", "N1")]),
    (⟨[]⟩, .union "T2" ⟨"fi", "%"⟩),
    (⟨["mapping", "a"]⟩, .struct "A" [⟨"fi", "%"⟩, ⟨"f2", "é"⟩, ⟨"N1", "3"⟩])]

theorem assign_odd : assign oddRules oddSchema (.string "§") = .ok oddNames := by
  with_unfolding_all rfl

theorem legal_oddNames :
    oddRules.SpellsLegally ∧ assign oddRules oddSchema (.string "§") = .ok oddNames ∧
      (∀ id ∈ ["T2", "N1", "N1", "T2", "A"], isPlainIdentifier id.toList = true) ∧
      (∀ id ∈ ["fi", "f2", "N1", "fi"], isPlainIdentifier id.toList = true) ∧
      ∀ id ∈ ["EM", "E2", "N1"], isPlainIdentifier id.toList = true := by
  have hr : oddRules.SpellsLegally :=
    ⟨⟨"_", rfl, isIdentifierTail_underscore⟩, ⟨"N1", rfl, by decide⟩, ⟨some 2, rfl, by simp⟩⟩
  obtain ⟨htypes, hfields, hmembers⟩ :=
    (legal_of_assign oddSchema "§").1 oddRules oddNames hr assign_odd
  exact ⟨hr, assign_odd, htypes (by decide), hfields (by decide), hmembers (by decide)⟩

end Typegen.Naming
