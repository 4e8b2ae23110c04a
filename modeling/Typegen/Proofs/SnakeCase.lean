import Typegen.Proofs.WordSplitting

/-!
# Words of a text in snake case

In snake case the words of a text are kept apart by underscores and their letters are all small or all
capital.  Such a word is read as one word again (`WordShape.wordLength_append`), so the words of the
spelling are the words of the text, respelled (`words_toSnake`, `words_toScreamingSnake`).  Spelling a
text a second time therefore starts from the same words.
-/

namespace Typegen.Text

/-! ## Words that are kept apart -/

theorem head?_append_eq_false {p : Char → Bool} {l r : List Char} (hl : ∀ c ∈ l, p c = false)
    (hr : ∀ c ∈ r.head?, p c = false) : ∀ c ∈ (l ++ r).head?, p c = false := by
  cases l with
  | nil => exact hr
  | cons a l =>
    intro c hc
    obtain rfl := Option.some.inj hc
    exact hl a List.mem_cons_self

theorem takeWhile_append_eq {p : Char → Bool} {l r : List Char} (hl : ∀ c ∈ l, p c = true)
    (hr : ∀ c ∈ r.head?, p c = false) : (l ++ r).takeWhile p = l ∧ (l ++ r).dropWhile p = r := by
  have hnil := takeWhile_eq_nil_of_head? hr
  rw [List.takeWhile_append_of_pos hl, List.dropWhile_append_of_pos hl, hnil,
    dropWhile_of_takeWhile_eq_nil hnil, List.append_nil]
  exact ⟨rfl, rfl⟩

theorem WordShape.exists_append {w : List Char} (h : WordShape w) :
    ∃ cs ss ds, w = cs ++ ss ++ ds ∧ (∀ c ∈ cs, isCapital c = true) ∧
      (∀ s ∈ ss, isSmall s = true) ∧ (∀ d ∈ ds, isDigit d = true) ∧
      (ss ≠ [] → cs.length ≤ 1) := by
  cases h with
  | @capitals cs ds _ hcs hds => exact ⟨cs, [], ds, by simp, hcs, by simp, hds, by simp⟩
  | @smalls front ss ds hfront _ hss hds =>
    refine ⟨front.toList, ss, ds, rfl, by simpa using hfront, hss, hds, fun _ => ?_⟩
    cases front <;> simp
  | @digits ds _ hds => exact ⟨[], [], w, by simp, by simp, by simp, hds, by simp⟩

/-- Where a word is followed by a character of no word, it is measured in full. -/
theorem WordShape.wordLength_append {w rest : List Char} (h : WordShape w)
    (hrest : ∀ c ∈ rest.head?, Text.isWordChar c = false) :
    wordLength (w ++ rest) = w.length := by
  obtain ⟨cs, ss, ds, rfl, hcs, hss, hds, hone⟩ := h.exists_append
  have hkinds : ∀ c ∈ rest.head?,
      isCapital c = false ∧ isSmall c = false ∧ isDigit c = false := by
    intro c hc
    simpa [Text.isWordChar, and_assoc] using hrest c hc
  obtain ⟨htake, hdrop⟩ := takeWhile_append_eq hcs (r := ss ++ (ds ++ rest)) <|
    head?_append_eq_false (fun s hs => isCapital_eq_false_of_isSmall (hss s hs)) <|
      head?_append_eq_false (fun d hd => (not_letter_of_isDigit (hds d hd)).1) fun c hc =>
        (hkinds c hc).1
  obtain ⟨htake', hdrop'⟩ := takeWhile_append_eq hss (r := ds ++ rest) <|
    head?_append_eq_false (fun d hd => (not_letter_of_isDigit (hds d hd)).2) fun c hc =>
      (hkinds c hc).2.1
  obtain ⟨htake'', -⟩ := takeWhile_append_eq hds fun c hc => (hkinds c hc).2.2
  rw [wordLength_eq, List.append_assoc, List.append_assoc, htake, hdrop, htake', hdrop', htake'',
    if_neg]
  · rw [List.length_append, List.length_append]
  · rintro ⟨hmore, hsmall⟩
    have hle := hone hsmall
    omega

theorem words_cons_of_not_isWordChar {c : Char} (h : isWordChar c = false) (cs : List Char) :
    words (c :: cs) = words cs := by
  have hkinds : isCapital c = false ∧ isSmall c = false ∧ isDigit c = false := by
    simpa [isWordChar, and_assoc] using h
  rw [words, wordLength_eq]
  simp [hkinds]

/-- Words with underscores between them are read as they are. -/
theorem words_flatten_intersperse {ws : List (List Char)} (h : ∀ w ∈ ws, WordShape w) :
    words (ws.intersperse ['_']).flatten = ws := by
  induction ws with
  | nil => simp [words]
  | cons w ws ih =>
    rw [List.forall_mem_cons] at h
    cases ws with
    | nil =>
      have hlength : wordLength (w ++ []) = w.length := h.1.wordLength_append (by simp)
      have hwords := words_append h.1.ne_nil hlength
      rw [words] at hwords
      simpa using hwords
    | cons v ws =>
      have hunderscore : isWordChar '_' = false := by decide
      rw [List.intersperse_cons_cons, List.flatten_cons, List.flatten_cons, List.singleton_append,
        words_append h.1.ne_nil (h.1.wordLength_append (by simpa using hunderscore)),
        words_cons_of_not_isWordChar hunderscore, ih h.2]

/-! ## Words that are respelled -/

variable {cs w : List Char}

theorem wordShape_map_toSmall (h : w ∈ words cs) : WordShape (w.map toSmall) := by
  have hne := ne_nil_of_mem_words h
  obtain ⟨ls, ds, rfl, hls, hds⟩ := exists_letters_of_mem_words h
  rw [List.map_append, map_toSmall_of_isDigit hds]
  have hss : ∀ s ∈ ls.map toSmall, isSmall s = true :=
    List.forall_mem_map.2 fun l hl => isSmall_toSmall_of_letter (hls l hl)
  exact @WordShape.of_append [] _ _ (by simp) hss hds (by simp) (by simpa using hne)

theorem wordShape_map_toCapital (h : w ∈ words cs) : WordShape (w.map toCapital) := by
  have hne := ne_nil_of_mem_words h
  obtain ⟨ls, ds, rfl, hls, hds⟩ := exists_letters_of_mem_words h
  have hcs : ∀ c ∈ ls.map toCapital, isCapital c = true :=
    List.forall_mem_map.2 fun l hl => isCapital_toCapital_of_letter (hls l hl)
  have hdigits : ds.map toCapital = ds := by
    rw [List.map_congr_left fun d hd => toCapital_of_isDigit (hds d hd), List.map_id']
  rw [List.map_append, hdigits, ← List.append_nil (ls.map toCapital)]
  exact .of_append hcs (by simp) hds (by simp) (by simpa using hne)

theorem words_toSnake (cs : List Char) : words (toSnake cs) = (words cs).map (List.map toSmall) :=
  words_flatten_intersperse (List.forall_mem_map.2 fun _ => wordShape_map_toSmall)

theorem words_toScreamingSnake (cs : List Char) :
    words (toScreamingSnake cs) = (words cs).map (List.map toCapital) :=
  words_flatten_intersperse (List.forall_mem_map.2 fun _ => wordShape_map_toCapital)

theorem toSnake_toSnake (cs : List Char) : toSnake (toSnake cs) = toSnake cs := by
  rw [toSnake, words_toSnake, toSnake]
  simp only [List.map_map, Function.comp_def, toSmall_toSmall]

theorem toSnake_toScreamingSnake (cs : List Char) : toSnake (toScreamingSnake cs) = toSnake cs := by
  rw [toSnake, words_toScreamingSnake, toSnake]
  simp only [List.map_map, Function.comp_def, toSmall_toCapital]

theorem toScreamingSnake_toScreamingSnake (cs : List Char) :
    toScreamingSnake (toScreamingSnake cs) = toScreamingSnake cs := by
  rw [toScreamingSnake, words_toScreamingSnake, toScreamingSnake]
  simp only [List.map_map, Function.comp_def, toCapital_toCapital]

/-! ## Spelling strings -/

theorem toLower_ofList (w : List Char) :
    (String.ofList w).toLower = String.ofList (w.map toSmall) := by
  rw [← String.toList_inj, toList_toLower, String.toList_ofList, String.toList_ofList,
    funext toLower_eq_toSmall]

theorem toUpper_ofList (w : List Char) :
    (String.ofList w).toUpper = String.ofList (w.map toCapital) := by
  have htoList : (String.ofList w).toUpper.toList = _ := String.toList_map
  rw [← String.toList_inj, htoList, String.toList_ofList, String.toList_ofList,
    funext toUpper_eq_toCapital]

/-- Both snake cases keep the words of a text, in small letters or in capitals.  So spelling a text a
second time in the same of them changes nothing, and the spelling in small letters does not depend on
whether the text was spelled in capitals before. -/
theorem splitWords_snake (t : String) :
    splitWords (Case.snake.convert t) = (splitWords t).map String.toLower ∧
    splitWords (Case.screamingSnake.convert t) = (splitWords t).map String.toUpper ∧
    Case.snake.convert (Case.snake.convert t) = Case.snake.convert t ∧
    Case.screamingSnake.convert (Case.screamingSnake.convert t) = Case.screamingSnake.convert t ∧
    Case.snake.convert (Case.screamingSnake.convert t) = Case.snake.convert t := by
  have hsnake : (Case.snake.convert t).toList = toSnake t.toList := String.toList_ofList
  have hscreaming : (Case.screamingSnake.convert t).toList = toScreamingSnake t.toList :=
    String.toList_ofList
  refine ⟨?_, ?_, ?_, ?_, ?_⟩
  · rw [splitWords, hsnake, words_toSnake, splitWords, List.map_map, List.map_map]
    exact List.map_congr_left fun w _ => (toLower_ofList w).symm
  · rw [splitWords, hscreaming, words_toScreamingSnake, splitWords, List.map_map, List.map_map]
    exact List.map_congr_left fun w _ => (toUpper_ofList w).symm
  · show String.ofList (toSnake (Case.snake.convert t).toList) = _
    rw [hsnake, toSnake_toSnake]
    rfl
  · show String.ofList (toScreamingSnake (Case.screamingSnake.convert t).toList) = _
    rw [hscreaming, toScreamingSnake_toScreamingSnake]
    rfl
  · show String.ofList (toSnake (Case.screamingSnake.convert t).toList) = _
    rw [hscreaming, toSnake_toScreamingSnake]
    rfl

end Typegen.Text
