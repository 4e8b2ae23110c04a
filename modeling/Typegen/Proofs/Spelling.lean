import Mathlib.Data.List.TakeWhile
import Typegen.Proofs.TypeNames

/-!
# Characters of identifiers

A name that is put into a case consists of ASCII letters, digits and underscores (`Text.Plain`), and
nothing that happens to it later brings in other characters, as long as the texts that the rules add
have none.  So the identifiers of all types are plain (`Naming.Rules.ClaimsType.plain`).  What happens
to a name is told once for its finishing (`Naming.finish_eq_ok`), for the namespace that hands out an
identifier (`Naming.Namespace.holds_of_claim`) and for the site it belongs to (`Naming.NamedBy`).
-/

namespace Typegen.Text

/-- All characters are ASCII letters, digits or underscores. -/
def Plain (cs : List Char) : Prop := ∀ c ∈ cs, isWordChar c = true ∨ c = '_'

instance (cs : List Char) : Decidable (Plain cs) := List.decidableBAll _ cs

variable {c : Char} {cs w : List Char}

theorem Plain.append {ds : List Char} (hcs : Plain cs) (hds : Plain ds) : Plain (cs ++ ds) :=
  fun c hc => (List.mem_append.1 hc).elim (hcs c) (hds c)

theorem Plain.mono {ds : List Char} (h : Plain ds) (hsub : cs ⊆ ds) : Plain cs :=
  fun c hc => h c (hsub hc)

theorem plain_flatten {css : List (List Char)} (h : ∀ cs ∈ css, Plain cs) : Plain css.flatten := by
  intro c hc
  obtain ⟨cs, hcs, hc⟩ := List.mem_flatten.1 hc
  exact h cs hcs c hc

theorem plain_intercalate {css : List (List Char)} (h : ∀ cs ∈ css, Plain cs) :
    Plain (['_'].intercalate css) := by
  induction css with
  | nil => simp [List.intercalate, Plain]
  | cons cs css ih =>
    rw [List.forall_mem_cons] at h
    cases css with
    | nil => simpa [List.intercalate] using h.1
    | cons ds css =>
      rw [List.intercalate_cons_cons]
      have hjoint : Plain ['_'] := by simp [Plain]
      exact (h.1.append hjoint).append (ih h.2)

/-! ## Words -/

theorem mem_take_takeWhile {p : Char → Bool} (h : c ∈ cs.take (cs.takeWhile p).length) :
    p c = true := by
  rw [← List.prefix_iff_eq_take.1 (List.takeWhile_prefix p)] at h
  exact List.mem_takeWhile_imp h

theorem isWordChar_of_mem_take (h : c ∈ cs.take (wordLength cs)) : isWordChar c = true := by
  have hcapital : ∀ c ∈ cs.take (cs.takeWhile isCapital).length, isWordChar c = true := by
    intro c hc
    simp [isWordChar, mem_take_takeWhile hc]
  unfold wordLength at h
  dsimp only at h
  split at h
  · exact hcapital c (List.take_subset_take_left cs (Nat.sub_le _ _) h)
  · rw [List.take_add, List.take_add, List.mem_append, List.mem_append] at h
    rcases h with (h | h) | h
    · exact hcapital c h
    · simp [isWordChar, mem_take_takeWhile h]
    · simp [isWordChar, mem_take_takeWhile h]

theorem isWordChar_of_mem_words (hw : w ∈ words cs) : ∀ c ∈ w, isWordChar c = true := by
  fun_induction words cs with
  | case1 => simp at hw
  | case2 c cs _ ih => exact ih hw
  | case3 c cs n hlength ih =>
    rcases List.mem_cons.1 hw with rfl | hw
    · intro c' hc'
      have htake : c' ∈ (c :: cs).take (wordLength (c :: cs)) := by
        rw [hlength]
        exact hc'
      exact isWordChar_of_mem_take htake
    · exact ih hw

/-! ## Cases -/

theorem isCapital_toCapital (h : isSmall c = true) : isCapital (toCapital c) = true := by
  have hall : ∀ k, k < 26 → isCapital (Char.ofNat (k + 65)) = true := by decide
  have hbounds : 97 ≤ c.toNat ∧ c.toNat ≤ 122 := by
    simpa [isSmall, Char.le_def, UInt32.le_iff_toNat_le] using h
  rw [toCapital, if_pos h, show c.toNat - 32 = c.toNat - 97 + 65 by omega]
  exact hall _ (by omega)

theorem isSmall_toSmall (h : isCapital c = true) : isSmall (toSmall c) = true := by
  have hall : ∀ k, k < 26 → isSmall (Char.ofNat (k + 97)) = true := by decide
  have hbounds : 65 ≤ c.toNat ∧ c.toNat ≤ 90 := by
    simpa [isCapital, Char.le_def, UInt32.le_iff_toNat_le] using h
  rw [toSmall, if_pos h, show c.toNat + 32 = c.toNat - 65 + 97 by omega]
  exact hall _ (by omega)

theorem isWordChar_toCapital (h : isWordChar c = true) : isWordChar (toCapital c) = true := by
  cases hsmall : isSmall c with
  | true => simp [isWordChar, isCapital_toCapital hsmall]
  | false => rwa [toCapital, if_neg (by simp [hsmall])]

theorem isWordChar_toSmall (h : isWordChar c = true) : isWordChar (toSmall c) = true := by
  cases hcapital : isCapital c with
  | true => simp [isWordChar, isSmall_toSmall hcapital]
  | false => rwa [toSmall, if_neg (by simp [hcapital])]

theorem plain_map {f : Char → Char} (hf : ∀ c, isWordChar c = true → isWordChar (f c) = true)
    (hw : ∀ c ∈ w, isWordChar c = true) : Plain (w.map f) := by
  intro c hc
  obtain ⟨c', hc', rfl⟩ := List.mem_map.1 hc
  exact .inl (hf c' (hw c' hc'))

theorem plain_capitalize (hw : ∀ c ∈ w, isWordChar c = true) : Plain (capitalize w) := by
  cases w with
  | nil => simp [capitalize, Plain]
  | cons c w =>
    rw [List.forall_mem_cons] at hw
    have hfirst : Plain [toCapital c] := by simp [Plain, isWordChar_toCapital hw.1]
    exact hfirst.append (plain_map (fun _ => isWordChar_toSmall) hw.2)

theorem plain_flatten_capitalize {ws : List (List Char)}
    (hws : ∀ w ∈ ws, ∀ c ∈ w, isWordChar c = true) : Plain (ws.map capitalize).flatten := by
  refine plain_flatten fun cs hcs => ?_
  obtain ⟨w, hw, rfl⟩ := List.mem_map.1 hcs
  exact plain_capitalize (hws w hw)

theorem plain_joined {f : Char → Char} (hf : ∀ c, isWordChar c = true → isWordChar (f c) = true)
    {ws : List (List Char)} (hws : ∀ w ∈ ws, ∀ c ∈ w, isWordChar c = true) :
    Plain ((ws.map (List.map f)).intersperse ['_']).flatten := by
  refine plain_intercalate fun cs hcs => ?_
  obtain ⟨w, hw, rfl⟩ := List.mem_map.1 hcs
  exact plain_map hf (hws w hw)

theorem plain_convertChars {convention : Case} (h : convention ≠ .preserve) (cs : List Char) :
    Plain (convention.convertChars cs) := by
  have hwords : ∀ w ∈ words cs, ∀ c ∈ w, isWordChar c = true := fun w => isWordChar_of_mem_words
  cases convention with
  | pascal => exact plain_flatten_capitalize hwords
  | camel =>
    rw [Case.convertChars, toCamel]
    split
    · simp [Plain]
    · next w ws heq =>
      rw [heq, List.forall_mem_cons] at hwords
      exact (plain_map (fun _ => isWordChar_toSmall) hwords.1).append
        (plain_flatten_capitalize hwords.2)
  | snake => exact plain_joined (fun _ => isWordChar_toSmall) hwords
  | screamingSnake => exact plain_joined (fun _ => isWordChar_toCapital) hwords
  | preserve => exact absurd rfl h

theorem plain_convert {convention : Case} (h : convention ≠ .preserve) (text : String) :
    Plain (convention.convert text).toList := by
  rw [Case.convert, String.toList_ofList]
  exact plain_convertChars h _

end Typegen.Text

namespace Typegen.Naming

open Schema (Node)
open Text (Plain)

/-! ## Identifiers that are handed out -/

variable {left : Namespace} {id name : String} {taken : List String} {s : Site}

theorem plain_truncate (h : Plain name.toList) (limit : Option Int) :
    Plain (truncate limit name).toList := by
  cases limit with
  | none => exact h
  | some n =>
    rw [truncate, String.toList_ofList, cutChars]
    split
    · exact h.mono (List.take_subset _ _)
    · exact h.mono (List.take_subset _ _)

theorem isDigit_of_mem_numberText {n : Nat} {c : Char} (hc : c ∈ (numberText n).toList) :
    Text.isDigit c = true := by
  rw [numberText, String.toList_ofList] at hc
  simpa [Text.isDigit, Char.isDigit, Char.le_def] using
    Nat.isDigit_of_mem_toDigits (by decide) (by decide) hc

theorem plain_numberText (n : Nat) : Plain (numberText n).toList := fun c hc =>
  .inl (by simp [Text.isWordChar, isDigit_of_mem_numberText hc])

theorem plain_numbered {limit : Option Int} {base : String} {n : Nat} (hbase : Plain base.toList)
    (h : numbered limit base n = some id) : Plain id.toList := by
  simp only [numbered] at h
  split at h
  · cases h
    rw [String.toList_append]
    exact hbase.append (plain_numberText n)
  · split at h
    · cases h
    · cases h
      rw [String.toList_append]
      exact (plain_truncate hbase _).append (plain_numberText n)

/-- What holds of a name, and still does when it is cut, escaped or numbered, holds of the identifier
that is handed out for it. -/
theorem Namespace.holds_of_claim {P : String → Prop} {ns ns' : Namespace} {path : Option String}
    (h : ns.claim name path = .ok (id, ns')) (hname : P name)
    (hcut : ∀ limit, lengthLimit ns.maxLength = .ok limit → ∀ text, P text → P (truncate limit text))
    (hescape : ∀ suffix, ns.escapeSuffix = .string suffix → ∀ text, P text → P (text ++ suffix))
    (hnumber : ∀ limit base n id, P base → numbered limit base n = some id → P id) : P id := by
  obtain ⟨limit, base, hlimit, hbase, hid⟩ := exists_base_of_claim h
  have hcut := hcut limit hlimit
  have hholds : P base := by
    simp only [Namespace.base] at hbase
    split at hbase
    · split at hbase
      · next suffix heq =>
        cases hbase
        exact hcut _ (hescape suffix heq _ (hcut _ hname))
      · cases hbase
    · cases hbase
      exact hcut _ hname
  rcases hid with rfl | ⟨k, hk⟩
  · exact hholds
  · exact hnumber limit base k id hholds hk

/-- A namespace hands out plain identifiers for plain names. -/
theorem plain_of_claim {ns ns' : Namespace} {path : Option String}
    (h : ns.claim name path = .ok (id, ns')) (hname : Plain name.toList)
    (hsuffix : ∀ suffix, ns.escapeSuffix = .string suffix → Plain suffix.toList) :
    Plain id.toList := by
  refine Namespace.holds_of_claim (P := fun text => Plain text.toList) h hname
    (fun limit _ text htext => plain_truncate htext limit) (fun suffix heq text htext => ?_)
    fun limit base n id hbase => plain_numbered hbase
  rw [String.toList_append]
  exact htext.append (hsuffix suffix heq)

/-! ## Identifiers of types -/

/-- Names of types are put into a case, and what else goes into them is plain. -/
structure Rules.SpellsPlainly (r : Rules) : Prop where
  typeCase : r.typeCase ≠ .preserve
  escapeSuffix : ∀ text, r.escapeSuffix = .string text → Plain text.toList
  digitPrefix : ∀ text, r.digitPrefix = .string text → Plain text.toList

variable {r : Rules}

theorem plain_typeText (hcase : r.typeCase ≠ .preserve) (segments : List String) :
    Plain (r.typeText segments).toList := by
  unfold Rules.typeText
  split
  · rw [String.toList_intercalate]
    refine Text.plain_intercalate fun cs hcs => ?_
    obtain ⟨text, htext, rfl⟩ := List.mem_map.1 hcs
    obtain ⟨segment, -, rfl⟩ := List.mem_map.1 (List.mem_of_mem_filter htext)
    exact Text.plain_convert hcase segment
  · exact Text.plain_convert hcase _

/-- A text that is put into a case is replaced by the fallback if it is empty, and gets a text in
front if it begins with a digit. -/
theorem finish_eq_ok {convention : Text.Case} (hcase : convention ≠ .preserve)
    {fallback text raw : String} (h : r.finish convention fallback text = .ok raw) :
    ∃ id, id = (if text = "" then convention.convert fallback else text) ∧
      ((raw = id ∧ ∀ c cs, id.toList = c :: cs → Text.isDigit c = false) ∨
        ∃ digits, r.digitPrefix = .string digits ∧ raw = digits ++ id) := by
  simp only [Rules.finish, if_neg hcase] at h
  refine ⟨_, rfl, ?_⟩
  split at h
  · next c cs hchars =>
    split at h
    · split at h
      · next digits heq =>
        cases h
        exact .inr ⟨digits, heq, rfl⟩
      · cases h
    · next hdigit =>
      cases h
      refine .inl ⟨rfl, fun c' cs' hchars' => ?_⟩
      cases hchars.symm.trans hchars'
      simpa using hdigit
  · next hchars =>
    cases h
    refine .inl ⟨rfl, fun c cs hchars' => ?_⟩
    cases hchars.symm.trans hchars'

theorem plain_typeIdentifier (hr : r.SpellsPlainly) {segments : List String} {fallback raw : String}
    (h : r.typeIdentifier segments fallback = .ok raw) : Plain raw.toList := by
  obtain ⟨id, hid, hraw⟩ := finish_eq_ok hr.typeCase h
  have hplain : Plain id.toList := by
    rw [hid]
    split
    · exact Text.plain_convert hr.typeCase fallback
    · exact plain_typeText hr.typeCase segments
  rcases hraw with ⟨rfl, -⟩ | ⟨digits, heq, rfl⟩
  · exact hplain
  · rw [String.toList_append]
    exact (hr.digitPrefix digits heq).append hplain

/-- An identifier that was claimed for a type. -/
def Rules.ClaimsType (r : Rules) (id : String) : Prop :=
  ∃ taken segments raw path left, r.typeIdentifier segments = .ok raw ∧
    ({ r.freshNames r.reserved with taken := taken } : Namespace).claim raw path = .ok (id, left)

theorem Rules.ClaimsType.plain (hr : r.SpellsPlainly) {id : String} (h : r.ClaimsType id) :
    Plain id.toList := by
  obtain ⟨taken, segments, raw, path, left, hraw, hclaim⟩ := h
  exact plain_of_claim hclaim (plain_typeIdentifier hr hraw) hr.escapeSuffix

theorem Rules.ClaimsType.notMem_reserved (h : r.ClaimsType id) : id ∉ r.reserved.words := by
  obtain ⟨taken, segments, raw, path, left, -, hclaim⟩ := h
  exact (Namespace.isFree_iff.1 (Namespace.claim_spec hclaim).1).2

theorem claimsType_of_nameType {type : String}
    (h : nameType r { r.freshNames r.reserved with taken := taken } s = .ok (type, left))
    (hgiven : ∀ id, s.given = some id → r.ClaimsType id) : r.ClaimsType type := by
  unfold nameType at h
  split at h
  · next id hid =>
    rw [Except.ok.injEq, Prod.mk.injEq] at h
    exact h.1 ▸ hgiven id hid
  · obtain ⟨raw, hraw, hclaim⟩ := bind_eq_ok.1 h
    exact ⟨taken, _, raw, _, left, hraw, hclaim⟩

/-- The steps by which a site is named. -/
inductive NamedBy (r : Rules) (types : Namespace) (s : Site) : Names → Prop
  | qualified {type : String} {types' left : Namespace} {values : List String}
      {members : List (String × String)} (htype : nameType r types s = .ok (type, types'))
      (hqualify : r.qualifyMembers.isTruthy = true)
      (hmembers : nameQualified r types' (some s.node.path.text) s.segments values =
        .ok (members, left)) : NamedBy r types s (.enum type members)
  | enum {type : String} {types' : Namespace} {values : List String}
      {members : List (String × String)} (htype : nameType r types s = .ok (type, types'))
      (hqualify : ¬r.qualifyMembers.isTruthy = true)
      (hmembers : nameMembers r (r.freshNames r.reserved) (some s.node.path.text) values =
        .ok members) : NamedBy r types s (.enum type members)
  | struct {type : String} {types' : Namespace} {keys : List String} {fields : List FieldName}
      (htype : nameType r types s = .ok (type, types'))
      (hfields : nameFields r (r.freshNames r.fieldReserved) (some s.node.path.text) keys =
        .ok fields) : NamedBy r types s (.struct type fields)
  | union {type : String} {types' own : Namespace} {tag raw id : String}
      (htype : nameType r types s = .ok (type, types')) (hraw : r.fieldIdentifier tag = .ok raw)
      (hclaim : (r.freshNames r.fieldReserved).claim raw (some s.node.path.text) = .ok (id, own)) :
      NamedBy r types s (.union type ⟨id, tag⟩)

theorem namedBy_of_nameSite {types : Namespace} {names : Names}
    (h : nameSite r types s = .ok (some names, left)) : NamedBy r types s names := by
  unfold nameSite at h
  split at h
  · obtain ⟨⟨type, types'⟩, htype, h⟩ := bind_eq_ok.1 h
    dsimp only at h
    split at h
    · next hqualify =>
      simp only [bind_eq_ok, pure_eq_ok, Prod.mk.injEq, Option.some.injEq] at h
      obtain ⟨_, hmembers, rfl, -⟩ := h
      exact .qualified htype hqualify hmembers
    · next hqualify =>
      simp only [bind_eq_ok, pure_eq_ok, Prod.mk.injEq, Option.some.injEq] at h
      obtain ⟨_, hmembers, rfl, -⟩ := h
      exact .enum htype hqualify hmembers
  · simp only [bind_eq_ok, pure_eq_ok, Prod.mk.injEq, Option.some.injEq] at h
    obtain ⟨_, htype, _, hfields, rfl, -⟩ := h
    exact .struct htype hfields
  · simp only [bind_eq_ok, pure_eq_ok, Prod.mk.injEq, Option.some.injEq] at h
    obtain ⟨_, htype, _, hraw, _, hclaim, rfl, -⟩ := h
    exact .union htype hraw hclaim
  · cases h

theorem claimsType_of_nameSite {names : Names}
    (h : nameSite r { r.freshNames r.reserved with taken := taken } s = .ok (some names, left))
    (hgiven : ∀ id, s.given = some id → r.ClaimsType id) : r.ClaimsType names.type := by
  cases namedBy_of_nameSite h with
  | qualified htype | enum htype | struct htype | union htype =>
    exact claimsType_of_nameType htype hgiven

/-- What was named at a site.  If the site was given a type, that type had been claimed. -/
def Rules.NamedAt (r : Rules) (names : Names) : Prop :=
  ∃ taken s left, nameSite r { r.freshNames r.reserved with taken := taken } s =
    .ok (some names, left) ∧ ∀ id, s.given = some id → r.ClaimsType id

theorem namedAt_of_nameSites {ss : List Site} {nodes : List (Pointer × Names)}
    (h : nameSites r { r.freshNames r.reserved with taken := taken } ss = .ok (nodes, left))
    (hgiven : ∀ s ∈ ss, ∀ id, s.given = some id → r.ClaimsType id) :
    ∀ e ∈ nodes, r.NamedAt e.2 := by
  induction ss generalizing taken nodes with
  | nil =>
    rw [nameSites, Except.ok.injEq, Prod.mk.injEq] at h
    simp [← h.1]
  | cons s rest ih =>
    simp only [nameSites, bind_eq_ok, pure_eq_ok, Prod.mk.injEq] at h
    obtain ⟨⟨result, types⟩, hsite, ⟨others, left'⟩, hothers, rfl, rfl⟩ := h
    obtain ⟨taken', rfl⟩ := (namesSite_of_nameSite hsite).exists_taken
    rw [List.forall_mem_cons] at hgiven
    intro e he
    rcases List.mem_append.1 he with he | he
    · cases result with
      | none => simp at he
      | some names =>
        rw [List.mem_singleton.1 he]
        exact ⟨taken, s, _, hsite, hgiven.1⟩
    · exact ih hothers hgiven.2 e he

theorem namedAt_of_nameDefinitions {entries : List (String × Node)} {ids : List (String × String)}
    {nodes : List (Pointer × Names)}
    (h : nameDefinitions r { r.freshNames r.reserved with taken := taken } entries =
      .ok (ids, nodes, left)) : (∀ i ∈ ids, r.ClaimsType i.2) ∧ ∀ e ∈ nodes, r.NamedAt e.2 := by
  induction entries generalizing taken ids nodes with
  | nil =>
    rw [nameDefinitions, Except.ok.injEq, Prod.mk.injEq, Prod.mk.injEq] at h
    obtain ⟨rfl, rfl, -⟩ := h
    simp
  | cons e entries ih =>
    obtain ⟨id, own, types', ids', others, hbody, hrest, rfl, rfl⟩ := nameDefinitions_cons h
    obtain ⟨_, _, -, -, -, -, hhands⟩ := nameBody_spec hbody
    obtain ⟨taken', rfl⟩ := hhands.exists_taken
    obtain ⟨hids, hothers⟩ := ih hrest
    simp only [nameBody, bind_eq_ok, pure_eq_ok, Prod.mk.injEq] at hbody
    obtain ⟨raw, hraw, ⟨id', types⟩, hclaim, ⟨nodes', left'⟩, hnodes, rfl, rfl, -⟩ := hbody
    have hid : r.ClaimsType id' := ⟨taken, _, raw, _, types, hraw, hclaim⟩
    obtain ⟨-, rfl, -⟩ := Namespace.claim_spec hclaim
    have hgiven : ∀ s ∈ sites [⟨e.2, [e.1], none, some id'⟩], ∀ id, s.given = some id →
        r.ClaimsType id := by
      rw [sites, List.forall_mem_cons]
      refine ⟨fun id heq => Option.some.inj heq ▸ hid, fun s hs id heq => ?_⟩
      rw [given_of_mem_sites (fun c hc => ?_) s hs] at heq
      · cases heq
      · exact given_of_mem_children ((List.append_nil _) ▸ hc)
    refine ⟨List.forall_mem_cons.2 ⟨hid, hids⟩, fun e' he' => ?_⟩
    rcases List.mem_append.1 he' with he' | he'
    · exact namedAt_of_nameSites hnodes hgiven e' he'
    · exact hothers e' he'

/-- All identifiers of definitions and of the root were claimed for types, and all that is named at
nodes was named at their sites. -/
theorem namedAt_of_assign {schema : Schema} {rootName : Json} {t : Table}
    (h : assign r schema rootName = .ok t) :
    (∀ i ∈ t.definitions, r.ClaimsType i.2) ∧ r.ClaimsType t.root ∧
      ∀ e ∈ t.nodes, r.NamedAt e.2 := by
  obtain ⟨text, left, h⟩ := assign_eq_ok h
  obtain ⟨hids, hnodes⟩ := namedAt_of_nameDefinitions h
  exact ⟨fun i hi => hids i (List.mem_append_left _ hi), hids (text, t.root) (by simp), hnodes⟩

/-- All identifiers of definitions, of the root and of types were claimed for types. -/
theorem claimsType_of_assign {schema : Schema} {rootName : Json} {t : Table}
    (h : assign r schema rootName = .ok t) :
    (∀ i ∈ t.definitions, r.ClaimsType i.2) ∧ r.ClaimsType t.root ∧
      ∀ e ∈ t.nodes, r.ClaimsType e.2.type := by
  obtain ⟨hids, hroot, hnodes⟩ := namedAt_of_assign h
  refine ⟨hids, hroot, fun e he => ?_⟩
  obtain ⟨taken, s, left, hsite, hgiven⟩ := hnodes e he
  exact claimsType_of_nameSite hsite hgiven

end Typegen.Naming
