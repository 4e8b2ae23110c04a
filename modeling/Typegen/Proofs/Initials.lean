import Typegen.Proofs.LegalNames

/-!
# The first character of an identifier

An identifier begins as its case says: in Pascal case with a capital, in camel case with a small
letter, and where the text begins with a digit, with what is put in front of digits.  Neither a suffix
nor a number nor a limit that leaves room for a character changes that (`Begins.of_claim`).
-/

namespace Typegen.Text

variable {c : Char} {cs : List Char}

theorem ne_nil_of_mem_words {w : List Char} (h : w ∈ words cs) : w ≠ [] := by
  fun_induction words cs with
  | case1 => cases h
  | case2 _ _ _ ih => exact ih h
  | case3 c cs n _ ih =>
    rcases List.mem_cons.1 h with rfl | h
    · simp
    · exact ih h

theorem isCapital_toCapital_or (h : isWordChar c = true) :
    isCapital (toCapital c) = true ∨ isDigit (toCapital c) = true := by
  cases hsmall : isSmall c with
  | true => exact .inl (isCapital_toCapital hsmall)
  | false =>
    rw [toCapital, if_neg (by simp [hsmall])]
    simpa [isWordChar, hsmall] using h

theorem isSmall_toSmall_or (h : isWordChar c = true) :
    isSmall (toSmall c) = true ∨ isDigit (toSmall c) = true := by
  cases hcapital : isCapital c with
  | true => exact .inl (isSmall_toSmall hcapital)
  | false =>
    rw [toSmall, if_neg (by simp [hcapital])]
    simpa [isWordChar, hcapital] using h

theorem isCapital_eq_false_of_isSmall (h : isSmall c = true) : isCapital c = false := by
  simp only [isSmall, isCapital, Char.le_def, UInt32.le_iff_toNat_le, Bool.and_eq_true,
    Bool.and_eq_false_iff, decide_eq_true_eq, decide_eq_false_iff_not] at h ⊢
  have hgap : 'Z'.val.toNat < 'a'.val.toNat := by decide
  omega

/-- The first word of a text with words begins with a word character. -/
theorem exists_head_of_words {w : List Char} {ws : List (List Char)} (h : words cs = w :: ws) :
    ∃ c w', w = c :: w' ∧ isWordChar c = true := by
  have hmem : w ∈ words cs := h ▸ List.mem_cons_self
  obtain ⟨c, w', rfl⟩ := List.exists_cons_of_ne_nil (ne_nil_of_mem_words hmem)
  exact ⟨c, w', rfl, isWordChar_of_mem_words hmem c List.mem_cons_self⟩

theorem head_toPascal (h : (toPascal cs).head? = some c) :
    isCapital c = true ∨ isDigit c = true := by
  unfold toPascal at h
  cases hwords : words cs with
  | nil =>
    rw [hwords] at h
    cases h
  | cons w ws =>
    obtain ⟨d, w', rfl, hd⟩ := exists_head_of_words hwords
    rw [hwords] at h
    obtain rfl : toCapital d = c := Option.some.inj h
    exact isCapital_toCapital_or hd

theorem head_toCamel (h : (toCamel cs).head? = some c) : isSmall c = true ∨ isDigit c = true := by
  unfold toCamel at h
  cases hwords : words cs with
  | nil =>
    rw [hwords] at h
    cases h
  | cons w ws =>
    obtain ⟨d, w', rfl, hd⟩ := exists_head_of_words hwords
    rw [hwords] at h
    obtain rfl : toSmall d = c := Option.some.inj h
    exact isSmall_toSmall_or hd

end Typegen.Text

namespace Typegen.Naming

open Text (isCapital isSmall isDigit)

/-- The first character of a text has a property. -/
def Begins (P : Char → Bool) (s : String) : Prop := s.toList.head?.any P = true

variable {P : Char → Bool} {r : Rules} {s t : String}

theorem Begins.exists_cons (h : Begins P s) : ∃ c cs, s.toList = c :: cs ∧ P c = true := by
  unfold Begins at h
  cases hs : s.toList with
  | nil =>
    rw [hs] at h
    cases h
  | cons c cs =>
    rw [hs] at h
    exact ⟨c, cs, rfl, h⟩

theorem Begins.append (h : Begins P s) (t : String) : Begins P (s ++ t) := by
  obtain ⟨c, cs, hs, hc⟩ := h.exists_cons
  rw [Begins, String.toList_append, hs]
  exact hc

theorem Begins.truncate (h : Begins P s) {limit : Option Int} (hlimit : ∀ l ∈ limit, 1 ≤ l) :
    Begins P (truncate limit s) := by
  cases limit with
  | none => exact h
  | some l =>
    have hl : 1 ≤ l := hlimit l rfl
    obtain ⟨c, cs, hs, hc⟩ := h.exists_cons
    rw [Begins, Naming.truncate, String.toList_ofList, cutChars, if_pos (by omega), hs,
      show l.toNat = l.toNat - 1 + 1 by omega]
    exact hc

theorem Begins.numbered {limit : Option Int} {base id : String} {n : Nat} (h : Begins P base)
    (hid : numbered limit base n = some id) : Begins P id := by
  simp only [Naming.numbered] at hid
  split at hid
  · cases hid
    exact h.append _
  · split at hid
    · cases hid
    · next hfits =>
      cases hid
      refine (h.truncate fun l hl => ?_).append _
      obtain rfl := Option.some.inj hl
      omega

variable {id : String}

/-- A namespace hands out identifiers that begin like the names they are handed out for. -/
theorem Begins.of_claim (h : Begins P s) {ns ns' : Namespace} {path : Option String}
    (hclaim : ns.claim s path = .ok (id, ns'))
    (hlimit : ∀ limit, lengthLimit ns.maxLength = .ok limit → ∀ l ∈ limit, 1 ≤ l) : Begins P id :=
  Namespace.holds_of_claim (P := Begins P) hclaim h
    (fun limit heq _ htext => htext.truncate (hlimit limit heq)) (fun suffix _ _ htext =>
      htext.append suffix) fun _ _ _ _ hbase => hbase.numbered

/-- A text that is put into a case begins as the case says, unless it begins with a digit. -/
theorem begins_finish {convention : Text.Case} (hcase : convention ≠ .preserve)
    {fallback text raw : String} (hfallback : fallback ∈ ["Type", "field", "Empty"])
    (h : r.finish convention fallback (convention.convert text) = .ok raw)
    (hconvert : ∀ cs c, (convention.convertChars cs).head? = some c →
      P c = true ∨ isDigit c = true)
    (hfront : ∀ digits, r.digitPrefix = .string digits → Begins P digits) : Begins P raw := by
  obtain ⟨id, hid, ⟨rfl, hdigit⟩ | ⟨digits, hdigits, rfl⟩⟩ := finish_eq_ok hcase h
  · obtain ⟨source, rfl, hne⟩ : ∃ source, raw = convention.convert source ∧
        (convention.convert source).toList ≠ [] := by
      split at hid
      · refine ⟨fallback, hid, fun hnil => ?_⟩
        have hlegal := legal_fallback hcase fallback hfallback
        rw [hnil] at hlegal
        cases hlegal
      · next hne => exact ⟨text, hid, mt String.toList_eq_nil_iff.1 hne⟩
    obtain ⟨c, cs, hchars⟩ := List.exists_cons_of_ne_nil hne
    have hhead : (convention.convertChars source.toList).head? = some c := by
      rw [← String.toList_ofList (l := convention.convertChars source.toList)]
      exact congrArg List.head? hchars
    rcases hconvert _ c hhead with hc | hc
    · rw [Begins, hchars]
      exact hc
    · rw [hdigit c cs hchars] at hc
      cases hc
  · exact (hfront digits hdigits).append id

/-- A type whose name is put into Pascal case begins with a capital or with what is put in front of
digits. -/
theorem Rules.ClaimsType.begins (hr : r.SpellsLegally) (hcase : r.typeCase = .pascal)
    (hseparator : r.separator = .concatenate)
    (hfront : ∀ digits, r.digitPrefix = .string digits → Begins P digits)
    (hcapital : ∀ c, isCapital c = true → P c = true) (h : r.ClaimsType id) : Begins P id := by
  obtain ⟨taken, segments, raw, path, left, hraw, hclaim⟩ := h
  obtain ⟨limit, hlimit, hroom⟩ := hr.maxLength
  rw [typeIdentifier, typeText, hseparator, hcase] at hraw
  have hbegins : Begins P raw := begins_finish (by simp) (by simp) hraw
    (fun cs c hc => (Text.head_toPascal hc).imp_left (hcapital c)) hfront
  refine hbegins.of_claim hclaim fun limit' hlimit' => ?_
  obtain rfl := Except.ok.inj (hlimit.symm.trans hlimit')
  exact hroom

/-- A field whose name is put into camel case begins with a small letter or with what is put in front
of digits. -/
theorem Rules.ClaimsField.begins (hr : r.SpellsLegally) (hcase : r.fieldCase = .camel)
    (hfront : ∀ digits, r.digitPrefix = .string digits → Begins P digits)
    (hsmall : ∀ c, isSmall c = true → P c = true) (h : r.ClaimsField id) : Begins P id := by
  obtain ⟨taken, key, raw, path, left, hraw, hclaim⟩ := h
  obtain ⟨limit, hlimit, hroom⟩ := hr.maxLength
  rw [fieldIdentifier, hcase] at hraw
  have hbegins : Begins P raw := begins_finish (by simp) (by simp) hraw
    (fun cs c hc => (Text.head_toCamel hc).imp_left (hsmall c)) hfront
  refine hbegins.of_claim hclaim fun limit' hlimit' => ?_
  obtain rfl := Except.ok.inj (hlimit.symm.trans hlimit')
  exact hroom

end Typegen.Naming
