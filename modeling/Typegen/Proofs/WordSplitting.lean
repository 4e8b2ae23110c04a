import Typegen.Proofs.WordPattern

/-!
# What splitting a text into words keeps

A text is its words in their order, with nothing but characters that belong to no word in front of
them, between them and behind them (`splits_words`).  So the words put together are the letters and
digits of the text, and no word goes across a character that is left out.  A conversion to a case only
changes letters between small and capital and puts underscores between words, which leaves the letters
and digits as they were (`bare_convertChars`).
-/

namespace Typegen.Text

/-! ## Words in a text -/

/-- The shapes of words: capitals and digits behind them, small letters with an optional capital in
front and digits behind them, and digits. -/
inductive WordShape : List Char → Prop
  | capitals {cs ds : List Char} (hne : cs ≠ []) (hcs : ∀ c ∈ cs, isCapital c = true)
      (hds : ∀ d ∈ ds, isDigit d = true) : WordShape (cs ++ ds)
  | smalls {front : Option Char} {ss ds : List Char} (hfront : ∀ c ∈ front, isCapital c = true)
      (hne : ss ≠ []) (hss : ∀ s ∈ ss, isSmall s = true) (hds : ∀ d ∈ ds, isDigit d = true) :
      WordShape (front.toList ++ ss ++ ds)
  | digits {ds : List Char} (hne : ds ≠ []) (hds : ∀ d ∈ ds, isDigit d = true) : WordShape ds

/-- A text consists of words and of characters that belong to no word. -/
inductive Splits : List Char → List (List Char) → Prop
  | nil : Splits [] []
  | skip {c : Char} {cs : List Char} {ws : List (List Char)} (hc : isWordChar c = false)
      (h : Splits cs ws) : Splits (c :: cs) ws
  | word {w cs : List Char} {ws : List (List Char)} (hw : WordShape w) (h : Splits cs ws) :
      Splits (w ++ cs) (w :: ws)

theorem WordShape.ne_nil {w : List Char} (h : WordShape w) : w ≠ [] := by
  cases h with
  | capitals hne => exact List.append_ne_nil_of_left_ne_nil hne _
  | smalls _ hne =>
    exact List.append_ne_nil_of_left_ne_nil (List.append_ne_nil_of_right_ne_nil _ hne) _
  | digits hne => exact hne

theorem WordShape.isWordChar {w : List Char} (h : WordShape w) {c : Char} (hc : c ∈ w) :
    isWordChar c = true := by
  cases h with
  | capitals _ hcs hds =>
    rcases List.mem_append.1 hc with hc | hc
    · simp [Text.isWordChar, hcs c hc]
    · simp [Text.isWordChar, hds c hc]
  | smalls hfront _ hss hds =>
    rw [List.mem_append, List.mem_append, Option.mem_toList] at hc
    rcases hc with (hc | hc) | hc
    · simp [Text.isWordChar, hfront c hc]
    · simp [Text.isWordChar, hss c hc]
    · simp [Text.isWordChar, hds c hc]
  | digits _ hds => simp [Text.isWordChar, hds c hc]

variable {cs : List Char}

/-- Capitals, small letters and digits are a word when there is no more than one capital in front of
small letters. -/
theorem WordShape.of_append {ss ds : List Char} (hcs : ∀ c ∈ cs, isCapital c = true)
    (hss : ∀ s ∈ ss, isSmall s = true) (hds : ∀ d ∈ ds, isDigit d = true)
    (hone : ss ≠ [] → cs.length ≤ 1) (hne : cs ++ ss ++ ds ≠ []) : WordShape (cs ++ ss ++ ds) := by
  by_cases hsmall : ss = []
  · subst hsmall
    rw [List.append_nil] at hne ⊢
    by_cases hcapital : cs = []
    · subst hcapital
      exact .digits hne hds
    · exact .capitals hcapital hcs hds
  · match cs, hone hsmall with
    | [], _ => exact @smalls none ss ds (by simp) hsmall hss hds
    | [c], _ => exact @smalls (some c) ss ds (by simpa using hcs) hsmall hss hds

theorem take_length_takeWhile (p : Char → Bool) (cs : List Char) :
    cs.take (cs.takeWhile p).length = cs.takeWhile p :=
  (List.prefix_iff_eq_take.1 (List.takeWhile_prefix p)).symm

/-- What is measured at the beginning of a text has the shape of a word. -/
theorem wordShape_take {cs : List Char} (h : wordLength cs ≠ 0) :
    WordShape (cs.take (wordLength cs)) := by
  have hcapitals : ∀ c ∈ cs.takeWhile isCapital, isCapital c = true := fun c =>
    List.mem_takeWhile_imp
  have hsmalls : ∀ s ∈ (cs.dropWhile isCapital).takeWhile isSmall, isSmall s = true := fun s =>
    List.mem_takeWhile_imp
  have hdigits : ∀ d ∈ ((cs.dropWhile isCapital).dropWhile isSmall).takeWhile isDigit,
      isDigit d = true := fun d => List.mem_takeWhile_imp
  rw [wordLength_eq] at h ⊢
  split at h
  · next hacronym =>
    rw [if_pos hacronym]
    have hshape : WordShape (cs.take ((cs.takeWhile isCapital).length - 1) ++ []) := by
      refine .capitals ?_ (fun c hc => ?_) (by simp)
      · intro hnil
        rw [List.take_eq_nil_iff] at hnil
        rcases hnil with hzero | rfl
        · omega
        · simp at hacronym
      · refine hcapitals c ?_
        rw [← take_length_takeWhile]
        exact List.take_subset_take_left cs (Nat.sub_le _ _) hc
    rwa [List.append_nil] at hshape
  · next hacronym =>
    rw [if_neg hacronym, List.take_add, List.take_add]
    simp only [← List.drop_drop, drop_length_takeWhile, take_length_takeWhile]
    refine .of_append hcapitals hsmalls hdigits (fun hne => ?_) fun hnil => h ?_
    · by_contra hmore
      exact hacronym ⟨by omega, hne⟩
    · rw [← List.length_append, ← List.length_append, hnil, List.length_nil]

theorem wordShape_cons_take {c : Char} {n : Nat} (h : wordLength (c :: cs) = n + 1) :
    WordShape (c :: cs.take n) := by
  have hshape := @wordShape_take (c :: cs) (by omega)
  rwa [h, List.take_succ_cons] at hshape

/-- A text consists of its words and of characters that belong to no word. -/
theorem splits_words (cs : List Char) : Splits cs (words cs) := by
  fun_induction words cs with
  | case1 => exact .nil
  | case2 c cs hlength ih =>
    refine .skip ?_ ih
    rw [← Bool.not_eq_true]
    intro hc
    exact wordLength_ne_zero hc cs hlength
  | case3 c cs n hlength ih =>
    have hsplits := Splits.word (wordShape_cons_take hlength) ih
    rwa [List.cons_append, List.take_append_drop] at hsplits

/-- A separator as a blank. -/
def blanked (c : Char) : Char := if c ∈ ['_', '-', '.'] then ' ' else c

theorem blanked_eq {c : Char} (h : isWordChar c = true) : blanked c = c := by
  refine if_neg fun hmem => ?_
  have hnone : ∀ c ∈ ['_', '-', '.'], isWordChar c = false := by
    simp [isWordChar, isCapital, isSmall, isDigit]
  simp [hnone c hmem] at h

theorem comp_blanked {p : Char → Bool} (h : ∀ c ∈ ' ' :: ['_', '-', '.'], p c = false) :
    p ∘ blanked = p := by
  funext c
  unfold Function.comp blanked
  split
  · next hc => rw [h _ List.mem_cons_self, h c (List.mem_cons_of_mem _ hc)]
  · rfl

/-- It is all the same for the words whether separators are made blanks beforehand. -/
theorem words_map_blanked (cs : List Char) : words (cs.map blanked) = words cs := by
  have hlengths (cs : List Char) : wordLength (cs.map blanked) = wordLength cs := by
    simp only [wordLength, List.takeWhile_map, ← List.map_drop, List.length_map,
      @comp_blanked isCapital (by simp [isCapital]), @comp_blanked isSmall (by simp [isSmall]),
      @comp_blanked isDigit (by simp [isDigit])]
  fun_induction words cs with
  | case1 => rw [List.map_nil, words]
  | case2 c cs hlength ih =>
    rw [← hlengths, List.map_cons] at hlength
    rw [List.map_cons, words, hlength, ih]
  | case3 c cs n hlength ih =>
    have hshape := wordShape_cons_take hlength
    rw [← hlengths, List.map_cons] at hlength
    rw [List.map_cons, words, hlength]
    simp only
    rw [← List.map_drop, ih, ← List.map_take, ← List.map_cons,
      List.map_congr_left fun d hd => blanked_eq (hshape.isWordChar hd), List.map_id']

theorem Splits.wordShape {ws : List (List Char)} (h : Splits cs ws) : ∀ w ∈ ws, WordShape w := by
  induction h with
  | nil => simp
  | skip _ _ ih => exact ih
  | word hw _ ih => exact List.forall_mem_cons.2 ⟨hw, ih⟩

theorem Splits.flatten_eq {ws : List (List Char)} (h : Splits cs ws) :
    ws.flatten = cs.filter isWordChar := by
  induction h with
  | nil => rfl
  | skip hc _ ih => rw [List.filter_cons_of_neg (by simp [hc]), ih]
  | word hw _ ih =>
    rw [List.flatten_cons, List.filter_append, ih,
      List.filter_eq_self.2 fun c hc => hw.isWordChar hc]

/-! ## Conversions -/

theorem toNat_ofNat_of_lt {n : Nat} (h : n < 128) : (Char.ofNat n).toNat = n := by
  rw [Char.ofNat, dif_pos (.inl (by omega))]
  rfl

theorem toLower_eq_toSmall (c : Char) : c.toLower = toSmall c := by
  apply Char.toNat_inj.1
  have hcapital : isCapital c = true ↔ 'A'.val ≤ c.val ∧ c.val ≤ 'Z'.val := by
    simp [isCapital, Char.le_def]
  by_cases hc : isCapital c = true
  · have hlower : c.toLower = _ := dif_pos (hcapital.1 hc)
    rw [hlower, toSmall, if_pos hc]
    have hbounds : 65 ≤ c.val.toNat ∧ c.val.toNat ≤ 90 := by
      simpa [isCapital, Char.le_def, UInt32.le_iff_toNat_le] using hc
    have hascii : c.toNat + 32 < 128 :=
      Nat.lt_of_le_of_lt (Nat.add_le_add_right hbounds.2 32) (by decide)
    rw [toNat_ofNat_of_lt hascii]
    show (c.val + ('a'.val - 'A'.val)).toNat = c.val.toNat + 32
    rw [UInt32.toNat_add, show ('a'.val - 'A'.val).toNat = 32 by decide]
    omega
  · have hlower : c.toLower = c := dif_neg (mt hcapital.2 hc)
    rw [hlower, toSmall, if_neg hc]

theorem toUpper_eq_toCapital (c : Char) : c.toUpper = toCapital c := by
  apply Char.toNat_inj.1
  have hsmall : isSmall c = true ↔ 'a'.val ≤ c.val ∧ c.val ≤ 'z'.val := by
    simp [isSmall, Char.le_def]
  by_cases hc : isSmall c = true
  · have hupper : c.toUpper = _ := dif_pos (hsmall.1 hc)
    rw [hupper, toCapital, if_pos hc]
    have hbounds : 97 ≤ c.val.toNat ∧ c.val.toNat ≤ 122 := by
      simpa [isSmall, Char.le_def, UInt32.le_iff_toNat_le] using hc
    have hascii : c.toNat - 32 < 128 :=
      Nat.lt_of_le_of_lt ((Nat.sub_le _ _).trans hbounds.2) (by decide)
    rw [toNat_ofNat_of_lt hascii]
    show (c.val + ('A'.val - 'a'.val)).toNat = c.val.toNat - 32
    rw [UInt32.toNat_add, show ('A'.val - 'a'.val).toNat = 2 ^ 32 - 32 by decide]
    omega
  · have hupper : c.toUpper = c := dif_neg (mt hsmall.2 hc)
    rw [hupper, toCapital, if_neg hc]

theorem toSmall_toSmall (c : Char) : toSmall (toSmall c) = toSmall c := by
  by_cases hc : isCapital c = true
  · exact toSmall_of_isSmall (isSmall_toSmall hc)
  · rw [toSmall, toSmall, if_neg hc, if_neg hc]

theorem toCapital_toCapital (c : Char) : toCapital (toCapital c) = toCapital c := by
  by_cases hc : isSmall c = true
  · exact toCapital_of_isCapital (isCapital_toCapital hc)
  · rw [toCapital, toCapital, if_neg hc, if_neg hc]

theorem toSmall_toCapital (c : Char) : toSmall (toCapital c) = toSmall c := by
  by_cases hc : isSmall c = true
  · have hbounds : 97 ≤ c.toNat ∧ c.toNat ≤ 122 := by
      simpa [isSmall, Char.le_def, UInt32.le_iff_toNat_le] using hc
    rw [toSmall_of_isSmall hc, toSmall, if_pos (isCapital_toCapital hc), toCapital, if_pos hc,
      toNat_ofNat_of_lt (by omega), Nat.sub_add_cancel (by omega), Char.ofNat_toNat]
  · rw [toCapital, if_neg hc]

/-- A text in small letters, without underscores. -/
def bare (cs : List Char) : List Char := (cs.filter fun c => decide (c ≠ '_')).map Char.toLower

theorem bare_append (cs ds : List Char) : bare (cs ++ ds) = bare cs ++ bare ds := by
  simp only [bare, List.filter_append, List.map_append]

theorem toLower_eq_underscore_iff {c : Char} : c.toLower = '_' ↔ c = '_' := by
  rw [toLower_eq_toSmall]
  by_cases hc : isCapital c = true
  · refine iff_of_false (fun heq => ?_) ?_
    · have hsmall := isSmall_toSmall hc
      rw [heq] at hsmall
      exact absurd hsmall (by decide)
    · rintro rfl
      exact absurd hc (by decide)
  · rw [toSmall, if_neg hc]

/-- Spelling some letters in the other case changes nothing in a bare text. -/
theorem bare_map {f : Char → Char} (hf : ∀ c, (f c).toLower = c.toLower) (cs : List Char) :
    bare (cs.map f) = bare cs := by
  have hkeeps : ∀ c, decide (f c ≠ '_') = decide (c ≠ '_') := by
    intro c
    rw [decide_eq_decide, ne_eq, ne_eq, ← toLower_eq_underscore_iff, hf, toLower_eq_underscore_iff]
  simp only [bare, List.filter_map, Function.comp_def, hkeeps, List.map_map, hf]

theorem toLower_toSmall (c : Char) : (toSmall c).toLower = c.toLower := by
  rw [toLower_eq_toSmall, toLower_eq_toSmall, toSmall_toSmall]

theorem toLower_toCapital (c : Char) : (toCapital c).toLower = c.toLower := by
  rw [toLower_eq_toSmall, toLower_eq_toSmall, toSmall_toCapital]

theorem bare_capitalize (w : List Char) : bare (capitalize w) = bare w := by
  cases w with
  | nil => rfl
  | cons c w =>
    have hfirst := bare_map toLower_toCapital [c]
    calc
      bare (capitalize (c :: w))
      _ = bare ([c].map toCapital) ++ bare (w.map toSmall) := bare_append [toCapital c] _
      _ = bare [c] ++ bare w := by rw [hfirst, bare_map toLower_toSmall]
      _ = bare (c :: w) := (bare_append [c] w).symm

/-- Words that are respelled one by one and put together. -/
theorem bare_flatten_map {f : List Char → List Char} (hf : ∀ w, bare (f w) = bare w)
    (ws : List (List Char)) : bare (ws.map f).flatten = bare ws.flatten := by
  induction ws with
  | nil => rfl
  | cons w ws ih =>
    rw [List.map_cons, List.flatten_cons, List.flatten_cons, bare_append, bare_append, hf, ih]

/-- Underscores between words do not count. -/
theorem bare_flatten_intersperse (ws : List (List Char)) :
    bare (ws.intersperse ['_']).flatten = bare ws.flatten := by
  induction ws with
  | nil => rfl
  | cons w ws ih =>
    cases ws with
    | nil => rfl
    | cons v ws =>
      have hunderscore : bare ['_'] = [] := rfl
      rw [List.intersperse_cons_cons, List.flatten_cons, List.flatten_cons, bare_append,
        bare_append, ih, hunderscore, List.nil_append, ← bare_append]
      rfl

/-- A conversion keeps the letters and digits of a text. -/
theorem bare_convertChars {convention : Case} (h : convention ≠ .preserve) (cs : List Char) :
    bare (convention.convertChars cs) = (cs.filter isWordChar).map Char.toLower := by
  have hwords : bare (words cs).flatten = (cs.filter isWordChar).map Char.toLower := by
    rw [(splits_words cs).flatten_eq, bare, List.filter_eq_self.2]
    intro c hc
    rw [decide_eq_true_eq]
    rintro rfl
    exact absurd (List.mem_filter.1 hc).2 (by decide)
  rw [← hwords]
  cases convention with
  | pascal => exact bare_flatten_map bare_capitalize _
  | camel =>
    show bare (toCamel cs) = _
    rw [toCamel]
    cases words cs with
    | nil => rfl
    | cons w ws =>
      rw [List.flatten_cons, bare_append, bare_append, bare_map toLower_toSmall,
        bare_flatten_map bare_capitalize]
  | snake => exact (bare_flatten_intersperse _).trans (bare_flatten_map (bare_map toLower_toSmall) _)
  | screamingSnake =>
    exact (bare_flatten_intersperse _).trans (bare_flatten_map (bare_map toLower_toCapital) _)
  | preserve => exact absurd rfl h

/-! ## Splitting strings -/

theorem toList_toLower (s : String) : s.toLower.toList = s.toList.map Char.toLower :=
  String.toList_map

theorem map_toList_splitWords (t : String) : (splitWords t).map String.toList = words t.toList := by
  rw [splitWords, List.map_map]
  exact (List.map_congr_left fun w _ => String.toList_ofList).trans (List.map_id _)

/-- What splitting a text into words and spelling it in a case keeps.  The words are the matches of
the word pattern.  Put together they are the letters and digits of the text; each of them has the
shape of a word, and between them there are only characters that belong to no word.  So the spellings
of the text are its letters and digits, up to letter case and underscores. -/
theorem splitWords_exact (t : String) :
    (splitWords t).map String.toList = wordPattern.findAll t.toList ∧
    String.join (splitWords t) = String.ofList (t.toList.filter isWordChar) ∧
    (∀ w ∈ splitWords t, w ≠ "" ∧ WordShape w.toList) ∧
    Splits t.toList ((splitWords t).map String.toList) ∧
    ∀ convention ∈ [Case.pascal, .camel, .snake, .screamingSnake],
      (String.ofList ((convention.convert t).toList.filter fun c => decide (c ≠ '_'))).toLower =
        (String.ofList (t.toList.filter isWordChar)).toLower := by
  have hwords := map_toList_splitWords t
  have hsplits := splits_words t.toList
  refine ⟨?_, ?_, fun w hw => ?_, ?_, fun convention hmem => ?_⟩
  · rw [hwords, words_eq_findAll]
  · rw [← String.toList_inj, String.toList_join, String.toList_ofList, ← hsplits.flatten_eq,
      ← hwords, List.flatMap_def]
  · have hshape := hsplits.wordShape w.toList (hwords ▸ List.mem_map_of_mem hw)
    exact ⟨fun heq => hshape.ne_nil (by rw [heq]; rfl), hshape⟩
  · rw [hwords]
    exact hsplits
  · have hbare := @bare_convertChars convention (by rintro rfl; simp at hmem) t.toList
    rw [← String.toList_inj, toList_toLower, toList_toLower, String.toList_ofList,
      String.toList_ofList, ← hbare, Case.convert, String.toList_ofList]
    rfl

theorem splitWords_exact_acronym :
    splitWords "parseHTTP2Résumé" = ["parse", "HTTP2", "R", "sum"] ∧
      WordShape "HTTP2".toList ∧ String.join (splitWords "parseHTTP2Résumé") = "parseHTTP2Rsum" ∧
      (String.ofList ((Case.snake.convert "parseHTTP2Résumé").toList.filter
        fun c => decide (c ≠ '_'))).toLower = "parsehttp2rsum" := by
  obtain ⟨-, hjoin, hshapes, -, hspelled⟩ := splitWords_exact "parseHTTP2Résumé"
  have hwords : splitWords "parseHTTP2Résumé" = ["parse", "HTTP2", "R", "sum"] := by
    decide +kernel
  have hfilter : String.ofList ("parseHTTP2Résumé".toList.filter isWordChar) = "parseHTTP2Rsum" := by
    decide
  have hlower : "parseHTTP2Rsum".toLower = "parsehttp2rsum" := by
    rw [← String.toList_inj, toList_toLower]
    decide
  rw [hfilter] at hjoin hspelled
  refine ⟨hwords, (hshapes "HTTP2" (by rw [hwords]; simp)).2, hjoin, ?_⟩
  rw [hspelled .snake (by simp), hlower]

end Typegen.Text
