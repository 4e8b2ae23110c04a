import Typegen.Proofs.Quotation

/-!
# String literals in the target languages

A quoted string is written once and read by four languages.  `LiteralRules` holds what tells their
literals apart, and `LiteralRules.value?` reads a literal by such rules.  All four read a quoted
string as its UTF-16 units (`literal?_quote`).  Where strings are made of units that is the string
itself.  Where they are made of characters it is the string itself as long as no character takes two
units, and otherwise another string or no literal at all (`quote_codePoints`).
-/

namespace Typegen.Target

open Text (quote quotedChar utf16Units unitEscape hexDigits hexNumber?)

/-- The code points of a text. -/
def codePoints (s : String) : List Nat := s.toList.map Char.toNat

/-- The UTF-16 units of a text. -/
def utf16 (s : String) : List Nat := s.toList.flatMap fun c => utf16Units c.toNat

/-- The characters that UTF-16 units stand for: a pair of surrogates is one character. -/
def ofUtf16 : List Nat → List Char
  | high :: low :: rest =>
    if 0xd800 ≤ high ∧ high < 0xdc00 ∧ 0xdc00 ≤ low ∧ low < 0xe000 then
      Char.ofNat (0x10000 + (high - 0xd800) * 0x400 + (low - 0xdc00)) :: ofUtf16 rest
    else Char.ofNat high :: ofUtf16 (low :: rest)
  | [n] => [Char.ofNat n]
  | [] => []

/-! ## Rules for literals -/

/-- How a language reads string literals between double quotes.  Escapes other than these are left
out. -/
structure LiteralRules where
  /-- What a character stands for that is no escape. -/
  plain : Nat → List Nat
  /-- What a backslash in front of a character stands for. -/
  short : List (Nat × Nat)
  /-- The numbers that may stand behind `\u`. -/
  isUnit : Nat → Bool

/-- The characters that cannot stand for themselves: the quote, the backslash and line breaks. -/
def specials : List Nat := [0x22, 0x5c, 0x0a, 0x0d]

/-- The value of a literal from behind its first quote on; the last quote ends it. -/
def LiteralRules.value? (r : LiteralRules) : List Nat → Option (List Nat)
  | [0x22] => some []
  | 0x5c :: 0x75 :: a :: b :: c :: d :: rest => do
    let n ← hexNumber? ([a, b, c, d].map Char.ofNat)
    if r.isUnit n then return n :: (← r.value? rest) else none
  | 0x5c :: e :: rest => do return (← r.short.lookup e) :: (← r.value? rest)
  | n :: rest => if n ∈ specials then none else do return r.plain n ++ (← r.value? rest)
  | [] => none

/-- The value of a literal. -/
def LiteralRules.literal? (r : LiteralRules) : List Nat → Option (List Nat)
  | 0x22 :: rest => r.value? rest
  | _ => none

/-- The escapes that quoted strings have besides `\u`. -/
def quotedEscapes : List (Nat × Nat) :=
  [(0x22, 0x22), (0x5c, 0x5c), (0x62, 0x08), (0x74, 0x09), (0x6e, 0x0a), (0x66, 0x0c),
    (0x72, 0x0d)]

namespace TypeScript

/-- The literals of TypeScript, whose values are UTF-16 units. -/
def literalRules : LiteralRules where
  plain := utf16Units
  short := (0x27, 0x27) :: (0x76, 0x0b) :: quotedEscapes
  isUnit _ := true

end TypeScript

namespace Java

/-- The literals of Java, once the text has been translated into UTF-16 units. -/
def literalRules : LiteralRules where
  plain n := [n]
  short := (0x27, 0x27) :: (0x73, 0x20) :: quotedEscapes
  isUnit _ := false

/-- The UTF-16 units of a source text.  An escape with four hexadecimal digits is a unit, wherever it
stands and however many letters `u` it has.  Of several backslashes in a row only every other one
begins an escape. -/
def translate? (cs : List Char) : Option (List Nat) :=
  match cs with
  | '\\' :: 'u' :: rest =>
    match _h : rest.dropWhile (· = 'u') with
    | a :: b :: c :: d :: rest' => do return (← hexNumber? [a, b, c, d]) :: (← translate? rest')
    | _ => none
  | '\\' :: '\\' :: rest => do return 0x5c :: 0x5c :: (← translate? rest)
  | c :: rest => do return utf16Units c.toNat ++ (← translate? rest)
  | [] => some []
termination_by cs.length
decreasing_by
  · have hlength := (List.dropWhile_suffix (· = 'u') (l := rest)).length_le
    rw [_h] at hlength
    simp only [List.length_cons] at hlength ⊢
    omega
  all_goals simp; try omega

end Java

namespace Python

/-- The literals of Python, whose values are code points of any kind. -/
def literalRules : LiteralRules where
  plain n := [n]
  short := (0x27, 0x27) :: (0x61, 0x07) :: (0x76, 0x0b) :: quotedEscapes
  isUnit _ := true

end Python

namespace Go

/-- The literals of Go, whose values are characters.  A surrogate is no character. -/
def literalRules : LiteralRules where
  plain n := [n]
  short := (0x61, 0x07) :: (0x76, 0x0b) :: quotedEscapes
  isUnit n := !(0xd800 ≤ n && n < 0xe000)

end Go

/-! ## Quoted characters -/

/-- The three ways in which a character is quoted. -/
inductive QuotedAs (c : Char) : List Char → Prop
  | escape {e : Nat} (he : (e, c.toNat) ∈ quotedEscapes) : QuotedAs c ['\\', Char.ofNat e]
  | plain (hc : c.toNat ∉ specials) (hlow : 0x20 ≤ c.toNat) (hhigh : c.toNat < 0x7f) :
      QuotedAs c [c]
  | units (hc : c.toNat ∉ specials) : QuotedAs c ((utf16Units c.toNat).flatMap unitEscape)

theorem quotedAs_quotedChar (c : Char) : QuotedAs c (quotedChar c) := by
  unfold quotedChar
  split
  · next hc => exact .escape (e := 0x22) (by rw [hc]; decide)
  · next hc => exact .escape (e := 0x5c) (by rw [hc]; decide)
  · next hc => exact .escape (e := 0x62) (by rw [hc]; decide)
  · next hc => exact .escape (e := 0x74) (by rw [hc]; decide)
  · next hc => exact .escape (e := 0x6e) (by rw [hc]; decide)
  · next hc => exact .escape (e := 0x66) (by rw [hc]; decide)
  · next hc => exact .escape (e := 0x72) (by rw [hc]; decide)
  · next h22 h5c _ _ h0a _ h0d =>
    have hspecials : c.toNat ∉ specials := by
      simp only [specials, List.mem_cons, List.not_mem_nil, or_false, not_or]
      exact ⟨h22, h5c, h0a, h0d⟩
    split
    · next hplain =>
      rw [Bool.and_eq_true, decide_eq_true_eq, decide_eq_true_eq] at hplain
      exact .plain hspecials hplain.1 hplain.2
    · exact .units hspecials

variable {n : Nat} {c : Char}

theorem utf16Units_of_lt (h : n < 0x10000) : utf16Units n = [n] := by
  rw [utf16Units, if_pos h]

theorem lt_of_mem_utf16Units (h : n ∈ utf16Units c.toNat) : n < 0x10000 := by
  have hvalid : c.toNat < 0xd800 ∨ (0xdfff < c.toNat ∧ c.toNat < 0x110000) := c.valid
  unfold utf16Units at h
  split at h <;> simp at h <;> omega

theorem lt_of_mem_quotedEscapes {e : Nat} (h : (e, n) ∈ quotedEscapes) :
    e < 0x7f ∧ 0x20 ≤ e ∧ n < 0x7f ∧ e ≠ 0x75 := by
  have hall : ∀ p ∈ quotedEscapes, p.1 < 0x7f ∧ 0x20 ≤ p.1 ∧ p.2 < 0x7f ∧ p.1 ≠ 0x75 := by decide
  exact hall _ h

theorem toNat_ofNat_of_mem {e : Nat} (h : (e, n) ∈ quotedEscapes) : (Char.ofNat e).toNat = e := by
  have hvalid : e < 0xd800 := by
    have hlt := lt_of_mem_quotedEscapes h
    omega
  rw [Char.ofNat, dif_pos (.inl hvalid)]
  rfl

/-! ## The text between the quotes -/

/-- Whether a backslash stands in front of every quote, and something behind every backslash. -/
def quotesEscaped : List Char → Bool
  | '\\' :: _ :: rest => quotesEscaped rest
  | c :: rest => c ≠ '"' && c ≠ '\\' && quotesEscaped rest
  | [] => true

theorem quotesEscaped_cons (hquote : c ≠ '"') (hbackslash : c ≠ '\\') (rest : List Char) :
    quotesEscaped (c :: rest) = quotesEscaped rest := by
  rw [quotesEscaped]
  · simp [hquote, hbackslash]
  · rintro d rest' rfl
    exact absurd rfl hbackslash

theorem quotesEscaped_append {cs : List Char} (h : ∀ c ∈ cs, c ≠ '"' ∧ c ≠ '\\')
    (rest : List Char) : quotesEscaped (cs ++ rest) = quotesEscaped rest := by
  induction cs with
  | nil => rfl
  | cons c cs ih =>
    rw [List.forall_mem_cons] at h
    rw [List.cons_append, quotesEscaped_cons h.1.1 h.1.2, ih h.2]

/-- A text up to the first quote that has no backslash in front, and what stands behind it. -/
def splitQuote : List Char → Option (List Char × List Char)
  | '"' :: rest => some ([], rest)
  | '\\' :: c :: rest => (splitQuote rest).map fun r => ('\\' :: c :: r.1, r.2)
  | c :: rest => (splitQuote rest).map fun r => (c :: r.1, r.2)
  | [] => none

theorem splitQuote_append {body : List Char} (h : quotesEscaped body = true) (rest : List Char) :
    splitQuote (body ++ '"' :: rest) = some (body, rest) := by
  fun_induction quotesEscaped body with
  | case1 c body ih => rw [List.cons_append, List.cons_append, splitQuote, ih h, Option.map_some]
  | case2 c body hother ih =>
    simp only [Bool.and_eq_true, decide_eq_true_eq, ne_eq] at h
    rw [List.cons_append, splitQuote, ih h.2, Option.map_some]
    · exact h.1.1
    · rintro d rest' rfl
      exact absurd rfl h.1.2
  | case3 => rfl

theorem eq_of_splitQuote {cs body rest : List Char} (h : splitQuote cs = some (body, rest)) :
    cs = body ++ '"' :: rest ∧ ('\\' ∉ body → '"' ∉ body) := by
  fun_induction splitQuote cs generalizing body with
  | case1 rest' =>
    obtain ⟨rfl, rfl⟩ := Prod.mk.inj (Option.some.inj h)
    exact ⟨rfl, fun _ => List.not_mem_nil⟩
  | case2 c cs ih =>
    obtain ⟨⟨body', rest'⟩, hcs, heq⟩ := Option.map_eq_some_iff.1 h
    obtain ⟨rfl, rfl⟩ := Prod.mk.inj heq
    exact ⟨by rw [(ih hcs).1]; rfl, fun hbackslash => absurd List.mem_cons_self hbackslash⟩
  | case3 c cs hquote hother ih =>
    obtain ⟨⟨body', rest'⟩, hcs, heq⟩ := Option.map_eq_some_iff.1 h
    obtain ⟨rfl, rfl⟩ := Prod.mk.inj heq
    obtain ⟨hsplit, hclear⟩ := ih hcs
    refine ⟨by rw [hsplit]; rfl, fun hbackslash => ?_⟩
    rw [List.mem_cons, not_or] at hbackslash ⊢
    exact ⟨fun heq => hquote heq.symm, hclear hbackslash.2⟩
  | case4 => cases h

/-- A printable character of ASCII. -/
def IsPrintable (c : Char) : Prop := 0x20 ≤ c.toNat ∧ c.toNat < 0x7f

theorem hexDigit_printable : ∀ d < 16, (0x20 ≤ (Text.hexDigit d).toNat ∧
    (Text.hexDigit d).toNat < 0x7f) ∧ Text.hexDigit d ≠ '"' ∧ Text.hexDigit d ≠ '\\' ∧
    Text.hexDigit d ≠ 'u' := by
  decide

theorem exists_hexDigit_of_mem {width : Nat} (h : c ∈ hexDigits width n) :
    ∃ d < 16, c = Text.hexDigit d := by
  induction width generalizing n with
  | zero => simp [hexDigits] at h
  | succ width ih =>
    rw [hexDigits, List.mem_append, List.mem_singleton] at h
    rcases h with h | h
    · exact ih h
    · exact ⟨n % 16, Nat.mod_lt _ (by decide), h⟩

theorem quotesEscaped_unitEscape (n : Nat) (rest : List Char) :
    quotesEscaped (unitEscape n ++ rest) = quotesEscaped rest := by
  rw [unitEscape, List.cons_append, List.cons_append, quotesEscaped]
  refine quotesEscaped_append (fun c hc => ?_) rest
  obtain ⟨d, hd, rfl⟩ := exists_hexDigit_of_mem hc
  obtain ⟨-, hquote, hbackslash, -⟩ := hexDigit_printable d hd
  exact ⟨hquote, hbackslash⟩

theorem quotesEscaped_quotedChar (c : Char) (rest : List Char) :
    quotesEscaped (quotedChar c ++ rest) = quotesEscaped rest := by
  have hquoted := quotedAs_quotedChar c
  generalize quotedChar c = cs at hquoted
  cases hquoted with
  | escape => rfl
  | plain hc =>
    refine quotesEscaped_cons ?_ ?_ rest
    · rintro rfl
      exact hc (by decide)
    · rintro rfl
      exact hc (by decide)
  | units =>
    induction utf16Units c.toNat with
    | nil => rfl
    | cons n units ih =>
      rw [List.flatMap_cons, List.append_assoc, quotesEscaped_unitEscape, ih]

theorem quotesEscaped_quoted (cs : List Char) : quotesEscaped (cs.flatMap quotedChar) = true := by
  induction cs with
  | nil => rfl
  | cons c cs ih => rw [List.flatMap_cons, quotesEscaped_quotedChar, ih]

theorem isPrintable_of_mem_quotedChar {d : Char} (h : d ∈ quotedChar c) : IsPrintable d := by
  have hquoted := quotedAs_quotedChar c
  generalize quotedChar c = cs at hquoted h
  cases hquoted with
  | escape he =>
    obtain ⟨hhigh, hlow, -, -⟩ := lt_of_mem_quotedEscapes he
    rcases List.mem_cons.1 h with rfl | h
    · exact ⟨by decide, by decide⟩
    · rw [List.mem_singleton.1 h, IsPrintable, toNat_ofNat_of_mem he]
      exact ⟨hlow, hhigh⟩
  | plain _ hlow hhigh =>
    rw [List.mem_singleton.1 h]
    exact ⟨hlow, hhigh⟩
  | units =>
    obtain ⟨n, -, h⟩ := List.mem_flatMap.1 h
    rcases List.mem_cons.1 h with rfl | h
    · exact ⟨by decide, by decide⟩
    · rcases List.mem_cons.1 h with rfl | h
      · exact ⟨by decide, by decide⟩
      · obtain ⟨k, hk, rfl⟩ := exists_hexDigit_of_mem h
        exact (hexDigit_printable k hk).1

/-! ## Reading quoted strings -/

section

variable {r : LiteralRules} {rest : List Nat} {n : Nat}

theorem value?_unitEscape (hn : n < 0x10000) :
    r.value? ((unitEscape n).map Char.toNat ++ rest) =
      if r.isUnit n then (r.value? rest).map (n :: ·) else none := by
  have hnumber := Text.hexNumber?_hexDigits 4 n
  have hwidth : n < 16 ^ 4 := by omega
  rw [Nat.mod_eq_of_lt hwidth] at hnumber
  obtain ⟨a, b, d, e, hdigits⟩ : ∃ a b d e, hexDigits 4 n = [a, b, d, e] := ⟨_, _, _, _, rfl⟩
  rw [hdigits] at hnumber
  have hvalue : r.value? ((unitEscape n).map Char.toNat ++ rest) =
      (do
        let m ← hexNumber? ([a, b, d, e].map fun c => Char.ofNat c.toNat)
        if r.isUnit m then return m :: (← r.value? rest) else none) := by
    rw [unitEscape, hdigits]
    rfl
  rw [hvalue]
  simp only [Char.ofNat_toNat, List.map_id', hnumber, Option.bind_eq_bind, Option.bind_some]
  cases r.value? rest <;> rfl

theorem value?_short {e v : Nat} (he : e ≠ 0x75) (hv : r.short.lookup e = some v) :
    r.value? (0x5c :: e :: rest) = (r.value? rest).map (v :: ·) := by
  rw [LiteralRules.value?]
  · rw [hv]
    cases r.value? rest <;> rfl
  · rintro a b c d rest' rfl
    exact absurd rfl he

theorem value?_plain (hn : n ∉ specials) :
    r.value? (n :: rest) = (r.value? rest).map (r.plain n ++ ·) := by
  rw [LiteralRules.value?]
  · rw [if_neg hn]
    cases r.value? rest <;> rfl
  all_goals
    intros
    simp_all [specials]

/-- The rules read what quoted strings are made of. -/
structure LiteralRules.ReadQuoted (r : LiteralRules) : Prop where
  plain : ∀ n, n < 0x7f → r.plain n = [n]
  short : ∀ e ∈ quotedEscapes, r.short.lookup e.1 = some e.2

theorem value?_escaped (hr : r.ReadQuoted) {e : Nat} (he : (e, n) ∈ quotedEscapes) :
    r.value? (0x5c :: e :: rest) = (r.value? rest).map (utf16Units n ++ ·) := by
  obtain ⟨-, -, hn, hu⟩ := lt_of_mem_quotedEscapes he
  rw [value?_short hu (hr.short _ he), utf16Units_of_lt (by omega)]
  rfl

/-- A quoted character is read as its units, provided that these may be written. -/
theorem value?_quotedChar (hr : r.ReadQuoted) {c : Char}
    (hunits : ∀ n ∈ utf16Units c.toNat, r.isUnit n = true) :
    r.value? ((quotedChar c).map Char.toNat ++ rest) =
      (r.value? rest).map (utf16Units c.toNat ++ ·) := by
  have hquoted := quotedAs_quotedChar c
  generalize quotedChar c = cs at hquoted
  cases hquoted with
  | escape he =>
    simp only [List.map_cons, List.map_nil, toNat_ofNat_of_mem he]
    exact value?_escaped hr he
  | plain hc _ hhigh =>
    rw [utf16Units_of_lt (by omega), ← hr.plain _ hhigh]
    exact value?_plain hc
  | units =>
    have hlt := fun n => lt_of_mem_utf16Units (c := c) (n := n)
    generalize utf16Units c.toNat = units at hunits hlt
    induction units with
    | nil => simp
    | cons n units ih =>
      rw [List.forall_mem_cons] at hunits
      rw [List.flatMap_cons, List.map_append, List.append_assoc,
        value?_unitEscape (hlt n List.mem_cons_self), if_pos hunits.1,
        ih hunits.2 fun m hm => hlt m (List.mem_cons_of_mem n hm), Option.map_map]
      rfl

theorem value?_quoted (hr : r.ReadQuoted) {cs : List Char}
    (hunits : ∀ c ∈ cs, ∀ n ∈ utf16Units c.toNat, r.isUnit n = true) :
    r.value? ((cs.flatMap quotedChar).map Char.toNat ++ [0x22]) =
      some (cs.flatMap fun c => utf16Units c.toNat) := by
  induction cs with
  | nil => simp [LiteralRules.value?]
  | cons c cs ih =>
    rw [List.forall_mem_cons] at hunits
    rw [List.flatMap_cons, List.map_append, List.append_assoc, value?_quotedChar hr hunits.1,
      ih hunits.2, List.flatMap_cons, Option.map_some]

theorem codePoints_quote (s : String) :
    codePoints (quote s) = 0x22 :: ((s.toList.flatMap quotedChar).map Char.toNat ++ [0x22]) := by
  simp [codePoints, quote, Text.quotedChars]

/-- A quoted string is read as its units, provided that these may be written. -/
theorem literal?_quote (hr : r.ReadQuoted) {s : String}
    (hunits : ∀ c ∈ s.toList, ∀ n ∈ utf16Units c.toNat, r.isUnit n = true) :
    r.literal? (codePoints (quote s)) = some (utf16 s) := by
  rw [codePoints_quote, LiteralRules.literal?, value?_quoted hr hunits]
  rfl

end

/-! ## Early translation -/

namespace Java

variable {n : Nat}

theorem translate?_unitEscape (hn : n < 0x10000) (rest : List Char) :
    translate? (unitEscape n ++ rest) = (translate? rest).map (n :: ·) := by
  have hnumber := Text.hexNumber?_hexDigits 4 n
  have hwidth : n < 16 ^ 4 := by omega
  rw [Nat.mod_eq_of_lt hwidth] at hnumber
  obtain ⟨a, b, d, e, hdigits, ha⟩ : ∃ a b d e, hexDigits 4 n = [a, b, d, e] ∧ a ≠ 'u' :=
    ⟨_, _, _, _, rfl, (hexDigit_printable _ (Nat.mod_lt _ (by decide))).2.2.2⟩
  rw [hdigits] at hnumber
  have hdrop : (a :: b :: d :: e :: rest).dropWhile (· = 'u') = a :: b :: d :: e :: rest := by
    simp [ha]
  rw [unitEscape, hdigits]
  simp only [List.cons_append, List.nil_append]
  rw [translate?]
  split
  · next heq =>
    rw [hdrop] at heq
    cases heq
    rw [hnumber]
    cases translate? rest <;> rfl
  · next hother => exact absurd hdrop (hother a b d e rest)

theorem translate?_plain {c : Char} (hc : c ≠ '\\') (rest : List Char) :
    translate? (c :: rest) = (translate? rest).map (utf16Units c.toNat ++ ·) := by
  rw [translate?]
  · cases translate? rest <;> rfl
  · rintro rest' rfl
    exact absurd rfl hc
  · rintro rest' rfl
    exact absurd rfl hc

theorem translate?_escaped {e : Nat} (he : (e, n) ∈ quotedEscapes) (rest : List Char) :
    translate? ('\\' :: Char.ofNat e :: rest) = (translate? rest).map (0x5c :: e :: ·) := by
  have hcode := toNat_ofNat_of_mem he
  by_cases hbackslash : e = 0x5c
  · subst hbackslash
    rw [show Char.ofNat 0x5c = '\\' from rfl, translate?]
    cases translate? rest <;> rfl
  · have hne : Char.ofNat e ≠ '\\' := fun heq => hbackslash (hcode.symm.trans (by rw [heq]; rfl))
    have hu : Char.ofNat e ≠ 'u' := fun heq =>
      (lt_of_mem_quotedEscapes he).2.2.2 (hcode.symm.trans (by rw [heq]; rfl))
    have hunits : utf16Units e = [e] :=
      utf16Units_of_lt (by have hlt := lt_of_mem_quotedEscapes he; omega)
    rw [translate?]
    · rw [translate?_plain hne, hcode, hunits]
      cases translate? rest <;> rfl
    · rintro rest' - heq
      exact hu (List.cons.inj heq).1
    · rintro rest' - heq
      exact hne (List.cons.inj heq).1

theorem readQuoted_literalRules : literalRules.ReadQuoted :=
  ⟨fun _ _ => rfl, by decide⟩

/-- The value of a literal in a source text. -/
def literal? (text : String) : Option (List Nat) :=
  (translate? text.toList).bind literalRules.literal?

theorem notMem_specials_of_mem_utf16Units {c : Char} (hc : c.toNat ∉ specials)
    (hn : n ∈ utf16Units c.toNat) : n ∉ specials := by
  unfold utf16Units at hn
  split at hn
  · rw [List.mem_singleton.1 hn]
    exact hc
  · simp only [specials, List.mem_cons, List.not_mem_nil, or_false] at hn ⊢
    omega

theorem value?_map_cons (hn : n ∉ specials) (units : Option (List Nat)) :
    (units.map (n :: ·)).bind literalRules.value? =
      (units.bind literalRules.value?).map (n :: ·) := by
  cases units with
  | none => rfl
  | some units => exact value?_plain hn

/-- A quoted character is translated first and then read as its units. -/
theorem value?_translated (c : Char) (rest : List Char) :
    (translate? (quotedChar c ++ rest)).bind literalRules.value? =
      ((translate? rest).bind literalRules.value?).map (utf16Units c.toNat ++ ·) := by
  have hquoted := quotedAs_quotedChar c
  generalize quotedChar c = cs at hquoted
  cases hquoted with
  | escape he =>
    rw [List.cons_append, List.cons_append, List.nil_append, translate?_escaped he]
    cases translate? rest with
    | none => rfl
    | some units => exact value?_escaped readQuoted_literalRules he
  | plain hc _ hhigh =>
    have hne : c ≠ '\\' := by
      rintro rfl
      exact hc (by decide)
    rw [List.cons_append, List.nil_append, translate?_plain hne, utf16Units_of_lt (by omega)]
    exact value?_map_cons hc _
  | units hc =>
    have hlt := fun n => lt_of_mem_utf16Units (c := c) (n := n)
    have hplain := fun n => notMem_specials_of_mem_utf16Units hc (n := n)
    generalize utf16Units c.toNat = units at hlt hplain
    induction units with
    | nil => simp
    | cons n units ih =>
      rw [List.forall_mem_cons] at hlt hplain
      rw [List.flatMap_cons, List.append_assoc, translate?_unitEscape hlt.1,
        value?_map_cons hplain.1, ih hlt.2 hplain.2, Option.map_map]
      rfl

theorem value?_translated_quoted (cs : List Char) :
    (translate? (cs.flatMap quotedChar ++ ['"'])).bind literalRules.value? =
      some (cs.flatMap fun c => utf16Units c.toNat) := by
  induction cs with
  | nil =>
    rw [List.flatMap_nil, List.nil_append, translate?_plain (by decide), translate?]
    rfl
  | cons c cs ih =>
    rw [List.flatMap_cons, List.append_assoc, value?_translated, ih, List.flatMap_cons,
      Option.map_some]

/-- A quoted string is read as its units, whatever escapes it seems to have. -/
theorem literal?_quoted (s : String) : literal? (quote s) = some (utf16 s) := by
  have hchars : (quote s).toList = '"' :: (s.toList.flatMap quotedChar ++ ['"']) := by
    simp [quote, Text.quotedChars]
  have hopening : ∀ units : Option (List Nat),
      (units.map (utf16Units '"'.toNat ++ ·)).bind literalRules.literal? =
        units.bind literalRules.value? := by
    intro units
    cases units <;> rfl
  rw [literal?, hchars, translate?_plain (by decide), hopening, value?_translated_quoted]
  rfl

end Java

/-! ## Units and characters -/

theorem ofUtf16_append (c : Char) (rest : List Nat) :
    ofUtf16 (utf16Units c.toNat ++ rest) = c :: ofUtf16 rest := by
  have hvalid : c.toNat < 0xd800 ∨ (0xdfff < c.toNat ∧ c.toNat < 0x110000) := c.valid
  by_cases hc : c.toNat < 0x10000
  · rw [utf16Units_of_lt hc]
    cases rest with
    | nil => simp [ofUtf16]
    | cons low rest =>
      rw [List.cons_append, List.nil_append, ofUtf16, if_neg (by omega), Char.ofNat_toNat]
  · have hcode : 0x10000 + (0xd800 + (c.toNat - 0x10000) / 0x400 - 0xd800) * 0x400 +
        (0xdc00 + (c.toNat - 0x10000) % 0x400 - 0xdc00) = c.toNat := by omega
    rw [utf16Units, if_neg hc, List.cons_append, List.cons_append, List.nil_append, ofUtf16,
      if_pos (by omega), hcode, Char.ofNat_toNat]

/-- The units of a text determine it. -/
theorem ofUtf16_utf16 (s : String) : ofUtf16 (utf16 s) = s.toList := by
  unfold utf16
  induction s.toList with
  | nil => rfl
  | cons c cs ih => rw [List.flatMap_cons, ofUtf16_append, ih]

/-- Every character is one unit. -/
def IsBasic (s : String) : Prop := ∀ c ∈ s.toList, c.toNat < 0x10000

instance (s : String) : Decidable (IsBasic s) := List.decidableBAll _ s.toList

theorem utf16_eq_codePoints_iff (s : String) : utf16 s = codePoints s ↔ IsBasic s := by
  unfold utf16 codePoints IsBasic
  induction s.toList with
  | nil => simp
  | cons c cs ih =>
    rw [List.flatMap_cons, List.map_cons, List.forall_mem_cons, ← ih]
    by_cases hc : c.toNat < 0x10000
    · simp [utf16Units_of_lt hc, hc]
    · -- The first of two units is less than the code point.
      have hfirst : 0xd800 + (c.toNat - 0x10000) / 0x400 < 0x10000 :=
        lt_of_mem_utf16Units (c := c) (by simp [utf16Units, hc])
      rw [utf16Units, if_neg hc]
      refine ⟨fun heq => ?_, fun h => absurd h.1 hc⟩
      have hhead := (List.cons.inj heq).1
      omega

/-! ## Languages whose strings are made of characters -/

theorem Python.readQuoted_literalRules : Python.literalRules.ReadQuoted :=
  ⟨fun _ _ => rfl, by decide⟩

theorem Go.readQuoted_literalRules : Go.literalRules.ReadQuoted :=
  ⟨fun _ _ => rfl, by decide⟩

namespace Go

theorem isUnit_of_basic {c : Char} (hc : c.toNat < 0x10000) :
    ∀ n ∈ utf16Units c.toNat, literalRules.isUnit n = true := by
  have hvalid : c.toNat < 0xd800 ∨ (0xdfff < c.toNat ∧ c.toNat < 0x110000) := c.valid
  rw [utf16Units_of_lt hc]
  intro n hn
  rw [List.mem_singleton.1 hn]
  simp only [literalRules, Bool.not_eq_true', Bool.and_eq_false_iff, decide_eq_false_iff_not]
  omega

/-- The first unit of a character with two units may not be written. -/
theorem value?_astral {c : Char} (hc : ¬c.toNat < 0x10000) (rest : List Nat) :
    literalRules.value? ((quotedChar c).map Char.toNat ++ rest) = none := by
  have hvalid : c.toNat < 0xd800 ∨ (0xdfff < c.toNat ∧ c.toNat < 0x110000) := c.valid
  have hquoted := quotedAs_quotedChar c
  generalize quotedChar c = cs at hquoted
  cases hquoted with
  | escape he =>
    have hlt := lt_of_mem_quotedEscapes he
    omega
  | plain _ _ hhigh => omega
  | units =>
    rw [utf16Units, if_neg hc, List.flatMap_cons, List.map_append, List.append_assoc,
      value?_unitEscape (by omega), if_neg]
    simp only [literalRules, Bool.not_eq_true', Bool.and_eq_false_iff, decide_eq_false_iff_not]
    omega

theorem literal?_astral {s : String} (hs : ¬IsBasic s) :
    literalRules.literal? (codePoints (quote s)) = none := by
  rw [codePoints_quote, LiteralRules.literal?]
  unfold IsBasic at hs
  generalize s.toList = cs at hs
  induction cs with
  | nil => simp at hs
  | cons c cs ih =>
    rw [List.flatMap_cons, List.map_append, List.append_assoc]
    by_cases hc : c.toNat < 0x10000
    · rw [value?_quotedChar readQuoted_literalRules (isUnit_of_basic hc), ih, Option.map_none]
      exact fun hcs => hs (List.forall_mem_cons.2 ⟨hc, hcs⟩)
    · exact value?_astral hc _

end Go

/-- What a quoted string is where strings are made of characters: in Python the string of its UTF-16
units, which is the string itself only if no character takes two of them; in Go the string itself in
that case, and otherwise no literal. -/
theorem quote_codePoints (s : String) :
    Python.literalRules.literal? (codePoints (quote s)) = some (utf16 s) ∧
      (Python.literalRules.literal? (codePoints (quote s)) = some (codePoints s) ↔ IsBasic s) ∧
      Go.literalRules.literal? (codePoints (quote s)) =
        if IsBasic s then some (codePoints s) else none := by
  have hpython : Python.literalRules.literal? (codePoints (quote s)) = some (utf16 s) :=
    literal?_quote Python.readQuoted_literalRules fun _ _ _ _ => rfl
  refine ⟨hpython, ?_, ?_⟩
  · rw [hpython, Option.some.injEq, utf16_eq_codePoints_iff]
  · split
    · next hs =>
      rw [literal?_quote Go.readQuoted_literalRules fun c hc => Go.isUnit_of_basic (hs c hc),
        (utf16_eq_codePoints_iff s).2 hs]
    · next hs => exact Go.literal?_astral hs

/-- A character that takes two units is lost: it is two other characters in Python, and what is
written is no literal in Go. -/
theorem quote_codePoints_astral :
    codePoints "😀" = [0x1f600] ∧
      Python.literalRules.literal? (codePoints (quote "😀")) = some [0xd83d, 0xde00] ∧
      Go.literalRules.literal? (codePoints (quote "😀")) = none := by
  decide

end Typegen.Target
