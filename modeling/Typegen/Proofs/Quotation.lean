import Mathlib.Algebra.Group.Nat.Defs
import Typegen.Json.Reader
import Typegen.Proofs.Outcome
import Typegen.Text.Quoted

/-!
# Quoted strings are read back

The reader of JSON strings finds the text that was quoted, whatever its characters are and whatever
stands behind the closing quote (`readString_quoted`).  A character is read back as one piece, or as
the two units of a surrogate pair, which are joined again.
-/

namespace Typegen.Text

/-! ## Hexadecimal digits -/

theorem hexValue?_hexDigit : ∀ d < 16, hexValue? (hexDigit d) = some d := by
  decide

theorem hexNumber?_append {cs : List Char} {c : Char} {m d : Nat} (hm : hexNumber? cs = some m)
    (hd : hexValue? c = some d) : hexNumber? (cs ++ [c]) = some (16 * m + d) := by
  rw [hexNumber?] at hm ⊢
  rw [List.foldl_append, hm, List.foldl_cons, List.foldl_nil, hd]
  rfl

theorem hexNumber?_hexDigits (width n : Nat) :
    hexNumber? (hexDigits width n) = some (n % 16 ^ width) := by
  induction width generalizing n with
  | zero => simp [hexDigits, hexNumber?, Nat.mod_one]
  | succ w ih =>
    have hdigit := hexValue?_hexDigit (n % 16) (Nat.mod_lt _ (by decide))
    have hstep : n % 16 ^ (w + 1) = 16 * (n / 16 % 16 ^ w) + n % 16 := by
      rw [Nat.pow_succ', Nat.mod_mul, Nat.add_comm]
    rw [hexDigits, hexNumber?_append (ih (n / 16)) hdigit, hstep]

end Typegen.Text

namespace Typegen.Json

open Text (utf16Units unitEscape quotedChar hexDigits)

variable {opening n : Nat} {c : Char} {rest left : List Char} {ps : List Piece}

/-! ## Pieces -/

theorem readPieces_unitEscape (hn : n < 0x10000) (hrest : rest ≠ [])
    (h : readPieces opening rest = .ok (ps, left)) :
    readPieces opening (unitEscape n ++ rest) = .ok (.unit n :: ps, left) := by
  have hnumber := Text.hexNumber?_hexDigits 4 n
  have hwidth : n < 16 ^ 4 := by omega
  rw [Nat.mod_eq_of_lt hwidth] at hnumber
  have hdigits : ∃ a b d e, hexDigits 4 n = [a, b, d, e] := ⟨_, _, _, _, rfl⟩
  obtain ⟨a, b, d, e, hdigits⟩ := hdigits
  rw [hdigits] at hnumber
  have hempty : rest.isEmpty = false := by simpa using hrest
  rw [unitEscape, hdigits]
  simp only [List.cons_append, List.nil_append, readPieces, hempty, hnumber, h]
  rfl

theorem readPieces_shortEscape {e : Char} (hc : c ≠ 'u') (he : shortEscape? c = some e)
    (h : readPieces opening rest = .ok (ps, left)) :
    readPieces opening ('\\' :: c :: rest) = .ok (.char e :: ps, left) := by
  rw [readPieces]
  · rw [he, h]
    rfl
  · rintro a b d e rest rfl
    exact absurd rfl hc
  · rintro rfl
    exact absurd rfl hc

theorem readPieces_plain (hquote : c ≠ '"') (hbackslash : c ≠ '\\') (hc : 0x20 ≤ c.toNat)
    (h : readPieces opening rest = .ok (ps, left)) :
    readPieces opening (c :: rest) = .ok (.char c :: ps, left) := by
  rw [readPieces]
  · rw [if_neg (Nat.not_lt.2 hc), h]
    rfl
  all_goals simp_all

/-- A unit that is no surrogate stands for a character by itself. -/
theorem joinPieces_unit (hn : isHighSurrogate n = false ∧ isLowSurrogate n = false)
    (ps : List Piece) : joinPieces (.unit n :: ps) = .char (Char.ofNat n) :: joinPieces ps := by
  have hchar : single n = .char (Char.ofNat n) := by simp [single, hn]
  rcases ps with _ | ⟨_ | m, ps⟩
  · simp [joinPieces, hchar]
  · simp [joinPieces, hchar]
  · simp [joinPieces, hn, hchar]

theorem joinPieces_pair {m : Nat} (hn : isHighSurrogate n = true) (hm : isLowSurrogate m = true)
    (ps : List Piece) : joinPieces (.unit n :: .unit m :: ps) =
      .char (Char.ofNat (0x10000 + (n - 0xd800) * 0x400 + (m - 0xdc00))) :: joinPieces ps := by
  simp [joinPieces, hn, hm]

/-! ## Quoted text -/

/-- The UTF-16 units of a character are read back as that character. -/
theorem readPieces_units (c : Char) (hrest : rest ≠ [])
    (h : readPieces opening rest = .ok (ps, left)) :
    ∃ qs, readPieces opening ((utf16Units c.toNat).flatMap unitEscape ++ rest) =
        .ok (qs, left) ∧ joinPieces qs = .char c :: joinPieces ps := by
  have hvalid : c.toNat < 0xd800 ∨ (0xdfff < c.toNat ∧ c.toNat < 0x110000) := c.valid
  rw [utf16Units]
  split_ifs with hn
  · refine ⟨.unit c.toNat :: ps, by simpa using readPieces_unitEscape hn hrest h, ?_⟩
    rw [joinPieces_unit, Char.ofNat_toNat]
    simp only [isHighSurrogate, isLowSurrogate, Bool.and_eq_false_iff, decide_eq_false_iff_not]
    omega
  · have hlow : 0xdc00 + (c.toNat - 0x10000) % 0x400 < 0x10000 := by omega
    have hhigh : 0xd800 + (c.toNat - 0x10000) / 0x400 < 0x10000 := by omega
    have hread := readPieces_unitEscape hhigh (by simp [unitEscape])
      (readPieces_unitEscape hlow hrest h)
    refine ⟨_, by simpa using hread, ?_⟩
    rw [joinPieces_pair]
    · have hc : 0x10000 + (0xd800 + (c.toNat - 0x10000) / 0x400 - 0xd800) * 0x400 +
          (0xdc00 + (c.toNat - 0x10000) % 0x400 - 0xdc00) = c.toNat := by omega
      rw [hc, Char.ofNat_toNat]
    · simp only [isHighSurrogate, Bool.and_eq_true, decide_eq_true_eq]
      omega
    · simp only [isLowSurrogate, Bool.and_eq_true, decide_eq_true_eq]
      omega

/-- A quoted character is read back. -/
theorem readPieces_quotedChar (c : Char) (hrest : rest ≠ [])
    (h : readPieces opening rest = .ok (ps, left)) :
    ∃ qs, readPieces opening (quotedChar c ++ rest) = .ok (qs, left) ∧
      joinPieces qs = .char c :: joinPieces ps := by
  have hshort : ∀ {e : Char}, e ≠ 'u' → shortEscape? e = some c →
      ∃ qs, readPieces opening (['\\', e] ++ rest) = .ok (qs, left) ∧
        joinPieces qs = .char c :: joinPieces ps :=
    fun hu he => ⟨.char c :: ps, readPieces_shortEscape hu he h, by simp [joinPieces]⟩
  have hchar : ∀ {n : Nat}, c.toNat = n → c = Char.ofNat n := by
    rintro n rfl
    exact c.ofNat_toNat.symm
  unfold quotedChar
  split
  iterate 7
    · next hc => exact hshort (by decide) (by rw [hchar hc]; rfl)
  · next hquote hbackslash _ _ _ _ _ =>
    split_ifs with hplain
    · rw [Bool.and_eq_true, decide_eq_true_eq] at hplain
      refine ⟨.char c :: ps, readPieces_plain ?_ ?_ hplain.1 h, by simp [joinPieces]⟩
      · rintro rfl
        exact hquote rfl
      · rintro rfl
        exact hbackslash rfl
    · exact readPieces_units c hrest h

theorem readPieces_quoted (opening : Nat) (cs rest : List Char) :
    ∃ ps, readPieces opening (cs.flatMap quotedChar ++ '"' :: rest) = .ok (ps, rest) ∧
      joinPieces ps = cs.map .char := by
  induction cs with
  | nil => exact ⟨[], by simp [readPieces], by simp [joinPieces]⟩
  | cons c cs ih =>
    obtain ⟨ps, hread, hjoin⟩ := ih
    obtain ⟨qs, hread', hjoin'⟩ := readPieces_quotedChar c (by simp) hread
    refine ⟨qs, ?_, hjoin'.trans (by rw [hjoin, List.map_cons])⟩
    rwa [List.flatMap_cons, List.append_assoc]

/-- Quoted text is read back, up to its closing quote. -/
theorem readString_quoted (cs rest : List Char) :
    readString (cs.flatMap quotedChar ++ '"' :: rest) = .ok (cs.map .char, rest) := by
  obtain ⟨ps, hread, hjoin⟩ := readPieces_quoted
    ((cs.flatMap quotedChar ++ '"' :: rest).length + 1) cs rest
  refine bind_eq_ok.2 ⟨_, hread, ?_⟩
  rw [← hjoin]
  rfl

end Typegen.Json
