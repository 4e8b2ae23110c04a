import Mathlib.Data.List.Basic
import Typegen.Text.Lowercase

/-!
# Small letters stay small

No character of a text in small letters is a capital, so small letters are all that a second
conversion finds, and it changes nothing (`lowercase_lowercase`).  That the small letters of the
capitals are no capitals themselves is read off the table run by run: the small letters of a run lie
before another run, behind it, or between its members.
-/

namespace Typegen.Text

/-- Whether a code point is a member of a run: first and last code point, step, and distance. -/
def inRun (r : Nat × Nat × Nat × Int) (n : Nat) : Bool :=
  r.1 ≤ n && n ≤ r.2.1 && (n - r.1) % r.2.2.1 == 0

/-- The runs of all capitals that have a single small letter. -/
def caseRuns : List (Nat × Nat × Nat × Int) := (65, 90, 1, 32) :: capitalRuns

/-- A character that is no capital; the first run is that of the dotted capital. -/
def IsSmall (c : Char) : Prop := ∀ r ∈ (304, 304, 1, 0) :: caseRuns, inRun r c.toNat = false

instance (c : Char) : Decidable (IsSmall c) := List.decidableBAll _ _

/-! ## Runs -/

/-- Whether all small letters of a run are characters. -/
def hasLetters (r : Nat × Nat × Nat × Int) : Bool :=
  0 ≤ r.1 + r.2.2.2 && (r.2.1 + r.2.2.2 < 0xd800 ||
    0xdfff < r.1 + r.2.2.2 && r.2.1 + r.2.2.2 < 0x110000)

/-- The small letters of the first and the last member of a run. -/
def lettersOf (r : Nat × Nat × Nat × Int) : Nat × Nat :=
  (Int.toNat (r.1 + r.2.2.2), Int.toNat (r.2.1 + r.2.2.2))

/-- Whether the small letters of a run are no members of another run, as far as their first, their
last and their parity tell. -/
def liesApart (r q : Nat × Nat × Nat × Int) : Bool :=
  Nat.blt (lettersOf r).2 q.1 || Nat.blt q.2.1 (lettersOf r).1 ||
    Nat.beq q.2.2.1 2 && (Nat.beq r.2.2.1 2 || Nat.beq r.1 r.2.1) &&
      Nat.beq (((lettersOf r).1 + q.1) % 2) 1

variable {r q : Nat × Nat × Nat × Int} {n : Nat}

theorem inRun_iff : inRun r n = true ↔ r.1 ≤ n ∧ n ≤ r.2.1 ∧ (n - r.1) % r.2.2.1 = 0 := by
  simp [inRun, and_assoc]

theorem isValidChar_of_hasLetters (hr : hasLetters r = true) (hn : inRun r n = true) :
    (Int.toNat (n + r.2.2.2)).isValidChar := by
  obtain ⟨hfirst, hlast, -⟩ := inRun_iff.1 hn
  simp only [hasLetters, Bool.and_eq_true, Bool.or_eq_true, decide_eq_true_eq] at hr
  unfold Nat.isValidChar
  omega

theorem inRun_of_liesApart (hletters : hasLetters r = true) (hapart : liesApart r q = true)
    (hn : inRun r n = true) : inRun q (Int.toNat (n + r.2.2.2)) = false := by
  have hletter : 0 ≤ r.1 + r.2.2.2 := by
    simp only [hasLetters, Bool.and_eq_true, decide_eq_true_eq] at hletters
    exact hletters.1
  obtain ⟨hfirst, hlast, hstep⟩ := inRun_iff.1 hn
  rw [Bool.eq_false_iff, ne_eq, inRun_iff]
  rintro ⟨hfirst', hlast', hstep'⟩
  simp only [liesApart, lettersOf, Bool.or_eq_true, Bool.and_eq_true, Nat.blt_eq, Nat.beq_eq]
    at hapart
  rcases hapart with (hbefore | hbehind) | ⟨⟨htwo, hother⟩, hparity⟩
  · omega
  · omega
  · rw [htwo] at hstep'
    rcases hother with htwo' | hsingle
    · rw [htwo'] at hstep
      omega
    · omega

theorem hasLetters_caseRuns : ∀ r ∈ caseRuns, hasLetters r = true := by
  decide +kernel

theorem liesApart_caseRuns :
    (caseRuns.all fun r => ((304, 304, 1, 0) :: caseRuns).all (liesApart r)) = true := by
  decide +kernel

theorem first_capitalRuns : ∀ r ∈ capitalRuns, 0x80 ≤ r.1 := by
  decide +kernel

/-! ## Single characters -/

/-- The small letter of a character is read off the run that the character is in, if there is
one. -/
theorem smallLetter_cases (c : Char) :
    (∃ r ∈ caseRuns, inRun r c.toNat = true ∧
        smallLetter c = Char.ofNat (Int.toNat (c.toNat + r.2.2.2))) ∨
      ((∀ r ∈ caseRuns, inRun r c.toNat = false) ∧ smallLetter c = c) := by
  have hletter : ('A' ≤ c && c ≤ 'Z') = true ↔ inRun (65, 90, 1, 32) c.toNat = true := by
    simp [inRun, Char.le_def, UInt32.le_iff_toNat_le, Nat.mod_one]
  unfold smallLetter
  by_cases hascii : ('A' ≤ c && c ≤ 'Z') = true
  · rw [if_pos hascii]
    exact .inl ⟨(65, 90, 1, 32), List.mem_cons_self, hletter.1 hascii, rfl⟩
  · have hfront : inRun (65, 90, 1, 32) c.toNat = false := by
      rwa [hletter, Bool.not_eq_true] at hascii
    rw [if_neg hascii]
    by_cases hlow : c.toNat < 0x80
    · rw [if_pos hlow]
      refine .inr ⟨List.forall_mem_cons.2 ⟨hfront, fun r hr => ?_⟩, rfl⟩
      have hfirst := first_capitalRuns r hr
      rw [Bool.eq_false_iff, ne_eq, inRun_iff]
      omega
    · rw [if_neg hlow]
      cases hfind : capitalRuns.find? fun r => inRun r c.toNat with
      | some r =>
        have hin : inRun r c.toNat = true := by simpa using List.find?_some hfind
        refine .inl ⟨r, List.mem_cons_of_mem _ (List.mem_of_find?_eq_some hfind), hin, ?_⟩
        simp only [inRun] at hfind
        rw [hfind]
      | none =>
        refine .inr ⟨List.forall_mem_cons.2 ⟨hfront, fun r hr => ?_⟩, ?_⟩
        · simpa using List.find?_eq_none.1 hfind r hr
        · simp only [inRun] at hfind
          rw [hfind]

theorem IsSmall.smallLetter_eq {c : Char} (h : IsSmall c) : smallLetter c = c := by
  rcases smallLetter_cases c with ⟨r, hr, hin, -⟩ | ⟨-, heq⟩
  · rw [h r (List.mem_cons_of_mem _ hr)] at hin
    cases hin
  · exact heq

theorem isSmall_smallLetter {c : Char} (hc : c ≠ 'İ') : IsSmall (smallLetter c) := by
  rcases smallLetter_cases c with ⟨r, hr, hin, heq⟩ | ⟨hout, heq⟩
  · have hletters := hasLetters_caseRuns r hr
    have hvalid := isValidChar_of_hasLetters hletters hin
    intro q hq
    have hapart := List.all_eq_true.1 (List.all_eq_true.1 liesApart_caseRuns r hr) q hq
    have hvalue : (smallLetter c).toNat = Int.toNat (c.toNat + r.2.2.2) := by
      rw [heq, Char.ofNat, dif_pos hvalid]
      rfl
    rw [hvalue]
    exact inRun_of_liesApart hletters hapart hin
  · rw [heq]
    refine List.forall_mem_cons.2 ⟨?_, hout⟩
    rw [Bool.eq_false_iff, ne_eq, inRun_iff]
    rintro ⟨hfirst, hlast, -⟩
    apply hc
    apply Char.toNat_inj.1
    show c.toNat = 304
    simp only at hfirst hlast
    omega

/-! ## Texts -/

theorem lowercaseFrom_of_isSmall {before cs : List Char} (h : ∀ c ∈ cs, IsSmall c) :
    lowercaseFrom before cs = cs := by
  induction cs generalizing before with
  | nil => rfl
  | cons c cs ih =>
    rw [List.forall_mem_cons] at h
    have hdotted : c ≠ 'İ' := by
      rintro rfl
      exact absurd h.1 (by decide +kernel)
    have hsigma : c ≠ 'Σ' := by
      rintro rfl
      exact absurd h.1 (by decide +kernel)
    rw [lowercaseFrom, if_neg hdotted, if_neg hsigma, h.1.smallLetter_eq, ih h.2]
    rfl

theorem isSmall_of_mem_lowercaseFrom {before cs : List Char} :
    ∀ c ∈ lowercaseFrom before cs, IsSmall c := by
  induction cs generalizing before with
  | nil => simp [lowercaseFrom]
  | cons c cs ih =>
    intro d hd
    rw [lowercaseFrom, List.mem_append] at hd
    rcases hd with hd | hd
    · by_cases hdotted : c = 'İ'
      · rw [if_pos hdotted] at hd
        simp only [List.mem_cons, List.not_mem_nil, or_false] at hd
        rcases hd with rfl | rfl
        · decide +kernel
        · decide +kernel
      rw [if_neg hdotted] at hd
      by_cases hsigma : c = 'Σ'
      · rw [if_pos hsigma, List.mem_singleton] at hd
        rw [hd]
        split_ifs
        · decide +kernel
        · decide +kernel
      · rw [if_neg hsigma, List.mem_singleton] at hd
        rw [hd]
        exact isSmall_smallLetter hdotted
    · exact ih d hd

/-- A text in small letters is left as it is. -/
theorem lowercase_lowercase (s : String) : lowercase (lowercase s) = lowercase s := by
  show String.ofList (lowercaseFrom [] (lowercase s).toList) = lowercase s
  rw [lowercase, String.toList_ofList, lowercaseFrom_of_isSmall isSmall_of_mem_lowercaseFrom]

end Typegen.Text
