import Typegen.Proofs.PascalCase

/-!
# Words as a pattern

The words of a text are told by a pattern with four alternatives: capitals in front of a capitalised
word, small letters with an optional capital in front, capitals, and digits, the first three with
digits behind them.  A pattern is matched with backtracking.  An alternative is tried when those in
front of it do not match, and a repetition takes as many characters as it can and gives them back one
by one when what comes next does not match.  `Pattern.rests` lists what is left after each possible
match, in the order in which they are tried, so the first of them is the match.

Measuring a word finds the same match without trying (`first_wordPattern`), so cutting a text into
words is the search for all matches of the pattern (`words_eq_findAll`).
-/

namespace Typegen.Text

/-! ## Matching -/

/-- A pattern of texts, made of classes of characters. -/
inductive Pattern where
  /-- One character. -/
  | one (p : Char → Bool)
  /-- One character or none. -/
  | optional (p : Char → Bool)
  /-- Any number of characters. -/
  | many (p : Char → Bool)
  /-- One character or more. -/
  | run (p : Char → Bool)
  /-- Nothing, where a pattern matches what comes next. -/
  | ahead (q : Pattern)
  /-- A pattern and then another. -/
  | seq (q r : Pattern)
  /-- A pattern or else another. -/
  | alt (q r : Pattern)

/-- What is left of a text after characters of a class, from as many as possible down to none. -/
@[simp] def restsOfMany (p : Char → Bool) : List Char → List (List Char)
  | [] => [[]]
  | c :: cs => if p c then restsOfMany p cs ++ [c :: cs] else [c :: cs]

namespace Pattern

/-- What is left of a text after each match of a pattern at its beginning, in the order in which the
matches are tried. -/
@[simp] def rests : Pattern → List Char → List (List Char)
  | one _, [] => []
  | one p, c :: cs => if p c then [cs] else []
  | optional _, [] => [[]]
  | optional p, c :: cs => if p c then [cs, c :: cs] else [c :: cs]
  | many p, cs => restsOfMany p cs
  | run _, [] => []
  | run p, c :: cs => if p c then restsOfMany p cs else []
  | ahead q, cs => if (q.rests cs).isEmpty then [] else [cs]
  | seq q r, cs => (q.rests cs).flatMap r.rests
  | alt q r, cs => q.rests cs ++ r.rests cs

/-- What is left of a text after the match of a pattern at its beginning, if there is one. -/
def first (q : Pattern) (cs : List Char) : Option (List Char) := (q.rests cs).head?

/-- All matches of a pattern in a text, from left to right; a match has to take a character. -/
def findAll (q : Pattern) : List Char → List (List Char)
  | [] => []
  | c :: cs =>
    match q.first (c :: cs) with
    | none => findAll q cs
    | some rest =>
      if rest.length ≤ cs.length then
        (c :: cs).take (cs.length + 1 - rest.length) :: findAll q rest
      else findAll q cs
termination_by cs => cs.length

end Pattern

/-- A run of capitals, as far as a capitalised word does not follow. -/
def acronymPattern : Pattern := .seq (.run isCapital) (.ahead (.seq (.one isCapital) (.one isSmall)))

/-- Small letters with an optional capital in front. -/
def smallPattern : Pattern := .seq (.optional isCapital) (.run isSmall)

/-- The pattern of a word. -/
def wordPattern : Pattern :=
  .alt (.seq acronymPattern (.many isDigit))
    (.alt (.seq smallPattern (.many isDigit))
      (.alt (.seq (.run isCapital) (.many isDigit)) (.run isDigit)))

/-! ## The first match -/

theorem head?_restsOfMany (p : Char → Bool) (cs : List Char) :
    (restsOfMany p cs).head? = some (cs.dropWhile p) := by
  induction cs with
  | nil => rfl
  | cons c cs ih =>
    rw [restsOfMany, List.dropWhile_cons]
    split
    · rw [List.head?_append, ih]
      rfl
    · rfl

namespace Pattern

variable {p : Char → Bool} {q r : Pattern} {cs : List Char}

theorem first_alt : (alt q r).first cs = (q.first cs).or (r.first cs) := by
  rw [first, rests, List.head?_append]
  rfl

/-- A repetition at the end always matches, so the match in front of it is the first. -/
theorem first_seq_many : (seq q (many p)).first cs = (q.first cs).map (·.dropWhile p) := by
  rw [first, first, rests]
  cases q.rests cs with
  | nil => rfl
  | cons rest rests =>
    rw [List.flatMap_cons, List.head?_append, Pattern.rests, head?_restsOfMany]
    rfl

theorem first_run : (run p).first cs =
    if cs.takeWhile p ≠ [] then some (cs.dropWhile p) else none := by
  cases cs with
  | nil => rfl
  | cons c cs =>
    rw [first, rests]
    by_cases hc : p c = true
    · rw [if_pos hc, head?_restsOfMany, List.takeWhile_cons_of_pos hc, if_pos (by simp),
        List.dropWhile_cons_of_pos hc]
    · rw [if_neg hc, List.takeWhile_cons_of_neg hc, if_neg (by simp)]
      rfl

end Pattern

/-! ## Measuring a word -/

theorem drop_length_takeWhile (p : Char → Bool) (cs : List Char) :
    cs.drop (cs.takeWhile p).length = cs.dropWhile p := by
  conv => lhs; arg 2; rw [← List.takeWhile_append_dropWhile (p := p) (l := cs)]
  exact List.drop_left

/-- The length of a word, told by what is left behind its capitals and its small letters. -/
theorem wordLength_eq (cs : List Char) : wordLength cs =
    if 2 ≤ (cs.takeWhile isCapital).length ∧
        (cs.dropWhile isCapital).takeWhile isSmall ≠ [] then
      (cs.takeWhile isCapital).length - 1
    else (cs.takeWhile isCapital).length +
      ((cs.dropWhile isCapital).takeWhile isSmall).length +
      (((cs.dropWhile isCapital).dropWhile isSmall).takeWhile isDigit).length := by
  rw [wordLength]
  simp only [drop_length_takeWhile, ← List.drop_drop, Nat.one_le_iff_ne_zero, ne_eq,
    List.length_eq_zero_iff]

variable {cs : List Char}

theorem dropWhile_of_takeWhile_eq_nil {p : Char → Bool} (h : cs.takeWhile p = []) :
    cs.dropWhile p = cs := by
  rw [← drop_length_takeWhile, h, List.length_nil, List.drop_zero]

theorem takeWhile_isSmall_of_isCapital (h : cs.takeWhile isCapital ≠ []) :
    cs.takeWhile isSmall = [] := by
  cases cs with
  | nil => rfl
  | cons c cs =>
    by_cases hc : isCapital c = true
    · rw [List.takeWhile_cons_of_neg (by simp [isSmall_eq_false_of_isCapital hc])]
    · exact absurd (List.takeWhile_cons_of_neg hc) h

/-- A capitalised word comes next when there is a capital and then a small letter. -/
theorem rests_ahead (cs : List Char) :
    (Pattern.ahead (.seq (.one isCapital) (.one isSmall))).rests cs =
      if cs.takeWhile isCapital ≠ [] ∧ cs.tail.takeWhile isSmall ≠ [] then [cs] else [] := by
  cases cs with
  | nil => rfl
  | cons c cs =>
    cases cs with
    | nil => cases hc : isCapital c <;> simp [Pattern.rests, hc]
    | cons d cs => cases hc : isCapital c <;> cases hd : isSmall d <;> simp [Pattern.rests, hc, hd]

/-- Of all numbers of capitals only the last but one leaves a capitalised word. -/
theorem flatMap_rests_ahead (cs : List Char) :
    (restsOfMany isCapital cs).flatMap
        (Pattern.ahead (.seq (.one isCapital) (.one isSmall))).rests =
      if cs.takeWhile isCapital ≠ [] ∧ (cs.dropWhile isCapital).takeWhile isSmall ≠ [] then
        [cs.drop ((cs.takeWhile isCapital).length - 1)]
      else [] := by
  induction cs with
  | nil => rfl
  | cons c cs ih =>
    rw [restsOfMany]
    by_cases hc : isCapital c = true
    · rw [if_pos hc, List.flatMap_append, ih, List.flatMap_singleton, rests_ahead,
        List.takeWhile_cons_of_pos hc, List.dropWhile_cons_of_pos hc, List.tail_cons]
      by_cases hnil : cs.takeWhile isCapital = []
      · simp [hnil, dropWhile_of_takeWhile_eq_nil hnil]
      · rw [takeWhile_isSmall_of_isCapital hnil, List.length_cons]
        obtain ⟨n, hn⟩ := Nat.exists_eq_succ_of_ne_zero (mt List.length_eq_zero_iff.1 hnil)
        simp [hnil, hn]
    · rw [if_neg hc, List.flatMap_singleton, rests_ahead, List.takeWhile_cons_of_neg hc]
      simp

theorem first_acronymPattern (cs : List Char) : acronymPattern.first cs =
    if 2 ≤ (cs.takeWhile isCapital).length ∧
        (cs.dropWhile isCapital).takeWhile isSmall ≠ [] then
      some (cs.drop ((cs.takeWhile isCapital).length - 1))
    else none := by
  rw [Pattern.first, acronymPattern, Pattern.rests]
  cases cs with
  | nil => rfl
  | cons c cs =>
    rw [Pattern.rests]
    by_cases hc : isCapital c = true
    · rw [if_pos hc, flatMap_rests_ahead, List.takeWhile_cons_of_pos hc,
        List.dropWhile_cons_of_pos hc, List.length_cons]
      by_cases hnil : cs.takeWhile isCapital = []
      · simp [hnil]
      · obtain ⟨n, hn⟩ := Nat.exists_eq_succ_of_ne_zero (mt List.length_eq_zero_iff.1 hnil)
        by_cases hsmall : (cs.dropWhile isCapital).takeWhile isSmall = []
        · simp [hsmall]
        · simp [hnil, hsmall, hn]
    · rw [if_neg hc, List.takeWhile_cons_of_neg hc]
      rfl

theorem first_smallPattern (cs : List Char) : smallPattern.first cs =
    if (cs.takeWhile isCapital).length ≤ 1 ∧
        (cs.dropWhile isCapital).takeWhile isSmall ≠ [] then
      some ((cs.dropWhile isCapital).dropWhile isSmall)
    else none := by
  have hrun : ∀ ds : List Char, ((Pattern.run isSmall).rests ds).head? =
      if ds.takeWhile isSmall ≠ [] then some (ds.dropWhile isSmall) else none :=
    fun ds => Pattern.first_run
  rw [Pattern.first, smallPattern, Pattern.rests]
  cases cs with
  | nil => rfl
  | cons c cs =>
    rw [Pattern.rests]
    by_cases hc : isCapital c = true
    · rw [if_pos hc, List.takeWhile_cons_of_pos hc, List.dropWhile_cons_of_pos hc]
      -- Giving the capital back does not help, since no small letter is in its place.
      have hback : (Pattern.run isSmall).rests (c :: cs) = [] := by
        simp [Pattern.rests, isSmall_eq_false_of_isCapital hc]
      rw [List.flatMap_cons, List.flatMap_singleton, hback, List.append_nil, hrun,
        List.length_cons]
      by_cases hnil : cs.takeWhile isCapital = []
      · simp only [hnil, dropWhile_of_takeWhile_eq_nil hnil, List.length_nil, Nat.zero_add,
          Nat.le_refl, true_and]
      · simp [hnil, takeWhile_isSmall_of_isCapital hnil]
    · rw [if_neg hc, List.takeWhile_cons_of_neg hc, List.dropWhile_cons_of_neg hc,
        List.flatMap_singleton, hrun]
      simp only [List.length_nil, Nat.zero_le, true_and]

/-- Where a text goes on with the last of its capitals, it does not go on with digits. -/
theorem dropWhile_isDigit_drop (h : cs.takeWhile isCapital ≠ []) :
    (cs.drop ((cs.takeWhile isCapital).length - 1)).dropWhile isDigit =
      cs.drop ((cs.takeWhile isCapital).length - 1) := by
  have hpos : 0 < (cs.takeWhile isCapital).length := List.length_pos_of_ne_nil h
  have hfront := List.takeWhile_prefix (l := cs) isCapital
  have hinside : (cs.takeWhile isCapital).length - 1 < (cs.takeWhile isCapital).length := by omega
  have hlt : (cs.takeWhile isCapital).length - 1 < cs.length := by
    have hle := hfront.length_le
    omega
  have hcapital : isCapital cs[(cs.takeWhile isCapital).length - 1] = true := by
    rw [← hfront.getElem hinside]
    exact List.mem_takeWhile_imp (List.getElem_mem hinside)
  rw [List.drop_eq_getElem_cons hlt, List.dropWhile_cons_of_neg]
  simp [isDigit_eq_false_of_letter (.inl hcapital)]

/-- The pattern matches just the word that is measured. -/
theorem first_wordPattern (cs : List Char) : wordPattern.first cs =
    if wordLength cs = 0 then none else some (cs.drop (wordLength cs)) := by
  simp only [wordPattern, Pattern.first_alt, Pattern.first_seq_many, first_acronymPattern,
    first_smallPattern, Pattern.first_run]
  have hlength := wordLength_eq cs
  have hdrop : cs.drop ((cs.takeWhile isCapital).length +
      ((cs.dropWhile isCapital).takeWhile isSmall).length +
      (((cs.dropWhile isCapital).dropWhile isSmall).takeWhile isDigit).length) =
        ((cs.dropWhile isCapital).dropWhile isSmall).dropWhile isDigit := by
    simp only [← List.drop_drop, drop_length_takeWhile]
  by_cases hacronym : 2 ≤ (cs.takeWhile isCapital).length ∧
      (cs.dropWhile isCapital).takeWhile isSmall ≠ []
  · have hcapital : cs.takeWhile isCapital ≠ [] := by
      intro hnil
      rw [hnil] at hacronym
      simp at hacronym
    rw [if_pos hacronym] at hlength ⊢
    rw [hlength, Option.map_some, dropWhile_isDigit_drop hcapital, Option.some_or,
      if_neg (by omega)]
  rw [if_neg hacronym] at hlength ⊢
  rw [hlength, hdrop, Option.map_none, Option.none_or]
  by_cases hsmall : (cs.dropWhile isCapital).takeWhile isSmall = []
  · rw [if_neg (by simp [hsmall]), Option.map_none, Option.none_or,
      dropWhile_of_takeWhile_eq_nil hsmall, hsmall]
    by_cases hcapital : cs.takeWhile isCapital = []
    · rw [if_neg (not_not.2 hcapital), dropWhile_of_takeWhile_eq_nil hcapital, hcapital]
      by_cases hdigit : cs.takeWhile isDigit = []
      · simp [hdigit]
      · simp [hdigit]
    · rw [if_pos hcapital]
      simp [hcapital]
  · have hone : (cs.takeWhile isCapital).length ≤ 1 := by
      by_contra hmore
      exact hacronym ⟨by omega, hsmall⟩
    rw [if_pos ⟨hone, hsmall⟩]
    simp [hsmall]

/-- Cutting a text into words is searching it for the pattern. -/
theorem words_eq_findAll (cs : List Char) : words cs = wordPattern.findAll cs := by
  fun_induction words cs with
  | case1 => rw [Pattern.findAll]
  | case2 c cs hlength ih =>
    rw [Pattern.findAll, first_wordPattern, if_pos hlength]
    exact ih
  | case3 c cs n hlength ih =>
    rw [Pattern.findAll, first_wordPattern, if_neg (by omega), hlength, List.drop_succ_cons]
    have hshort : (cs.drop n).length ≤ cs.length := by simp
    simp only [if_pos hshort, ih, List.cons.injEq, and_true]
    rw [← List.take_succ_cons, List.take_eq_take_iff]
    simp only [List.length_drop, List.length_cons]
    omega

end Typegen.Text
