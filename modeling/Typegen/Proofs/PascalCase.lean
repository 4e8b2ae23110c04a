import Mathlib.Data.List.Chain
import Typegen.Proofs.Initials

/-!
# Pascal case of a text in Pascal case

In Pascal case nothing stands between words, so when a text is put into Pascal case once more other
words may be found in it.  A word that is a single letter and a word behind it with no more than one
letter are then read as one word, and the second letter becomes a small one.  So the spelling stays
just when the text has no such words (`toPascal_toPascal_eq_iff`).
-/

namespace Typegen.Text

/-! ## Classes of characters -/

variable {c : Char} {w rest ds cs : List Char} {ws : List (List Char)}

theorem isSmall_eq_false_of_isCapital (h : isCapital c = true) : isSmall c = false := by
  cases hsmall : isSmall c with
  | false => rfl
  | true =>
    rw [isCapital_eq_false_of_isSmall hsmall] at h
    cases h

theorem not_letter_of_isDigit (h : isDigit c = true) : isCapital c = false ∧ isSmall c = false := by
  have hdigit : c.toNat ≤ 57 := by
    have hbounds : 48 ≤ c.toNat ∧ c.toNat ≤ 57 := by
      simpa [isDigit, Char.le_def, UInt32.le_iff_toNat_le] using h
    exact hbounds.2
  constructor
  · rw [← Bool.not_eq_true]
    intro hc
    have hbounds : 65 ≤ c.toNat ∧ c.toNat ≤ 90 := by
      simpa [isCapital, Char.le_def, UInt32.le_iff_toNat_le] using hc
    omega
  · rw [← Bool.not_eq_true]
    intro hc
    have hbounds : 97 ≤ c.toNat ∧ c.toNat ≤ 122 := by
      simpa [isSmall, Char.le_def, UInt32.le_iff_toNat_le] using hc
    omega

theorem isDigit_eq_false_of_letter (h : isCapital c = true ∨ isSmall c = true) :
    isDigit c = false := by
  cases hdigit : isDigit c with
  | false => rfl
  | true =>
    obtain ⟨hcapital, hsmall⟩ := not_letter_of_isDigit hdigit
    simp [hcapital, hsmall] at h

theorem toSmall_of_isDigit (h : isDigit c = true) : toSmall c = c := by
  rw [toSmall, if_neg (by simp [not_letter_of_isDigit h])]

theorem toSmall_of_isSmall (h : isSmall c = true) : toSmall c = c := by
  rw [toSmall, if_neg (by simp [isCapital_eq_false_of_isSmall h])]

theorem toCapital_of_isDigit (h : isDigit c = true) : toCapital c = c := by
  rw [toCapital, if_neg (by simp [not_letter_of_isDigit h])]

theorem toCapital_of_isCapital (h : isCapital c = true) : toCapital c = c := by
  rw [toCapital, if_neg (by simp [isSmall_eq_false_of_isCapital h])]

theorem isSmall_toSmall_of_letter (h : isCapital c = true ∨ isSmall c = true) :
    isSmall (toSmall c) = true := by
  rcases h with h | h
  · exact isSmall_toSmall h
  · rwa [toSmall_of_isSmall h]

theorem isCapital_toCapital_of_letter (h : isCapital c = true ∨ isSmall c = true) :
    isCapital (toCapital c) = true := by
  rcases h with h | h
  · rwa [toCapital_of_isCapital h]
  · exact isCapital_toCapital h

theorem isDigit_toSmall (c : Char) : isDigit (toSmall c) = isDigit c := by
  cases hcapital : isCapital c with
  | true =>
    rw [isDigit_eq_false_of_letter (.inr (isSmall_toSmall hcapital)),
      isDigit_eq_false_of_letter (.inl hcapital)]
  | false => rw [toSmall, if_neg (by simp [hcapital])]

theorem isDigit_toCapital (c : Char) : isDigit (toCapital c) = isDigit c := by
  cases hsmall : isSmall c with
  | true =>
    rw [isDigit_eq_false_of_letter (.inl (isCapital_toCapital hsmall)),
      isDigit_eq_false_of_letter (.inr hsmall)]
  | false => rw [toCapital, if_neg (by simp [hsmall])]

/-! ## The first word -/

theorem words_append (hne : w ≠ []) (h : wordLength (w ++ rest) = w.length) :
    words (w ++ rest) = w :: words rest := by
  obtain ⟨c, w, rfl⟩ := List.exists_cons_of_ne_nil hne
  rw [List.cons_append] at h ⊢
  rw [words, h, List.length_cons]
  simp

theorem toPascal_append (hne : w ≠ []) (h : wordLength (w ++ rest) = w.length) :
    toPascal (w ++ rest) = capitalize w ++ toPascal rest := by
  rw [toPascal, words_append hne h]
  rfl

theorem map_toSmall_of_isDigit (h : ∀ d ∈ ds, isDigit d = true) : ds.map toSmall = ds := by
  rw [List.map_congr_left fun d hd => toSmall_of_isDigit (h d hd), List.map_id']

/-- The digits that a text begins with stay. -/
theorem toPascal_eq_append (cs : List Char) :
    toPascal cs = cs.takeWhile isDigit ++ toPascal (cs.dropWhile isDigit) := by
  cases cs with
  | nil => rfl
  | cons c cs =>
    cases hc : isDigit c with
    | false => simp [hc]
    | true =>
      obtain ⟨hcapital, hsmall⟩ := not_letter_of_isDigit hc
      have hlength : wordLength (c :: cs.takeWhile isDigit ++ cs.dropWhile isDigit) =
          (c :: cs.takeWhile isDigit).length := by
        rw [List.cons_append, List.takeWhile_append_dropWhile]
        simp [wordLength, hc, hcapital, hsmall]
      have happend := toPascal_append (List.cons_ne_nil _ _) hlength
      rw [List.cons_append, List.takeWhile_append_dropWhile] at happend
      rw [happend, List.takeWhile_cons_of_pos hc, List.dropWhile_cons_of_pos hc, capitalize,
        toCapital_of_isDigit hc, map_toSmall_of_isDigit fun d => List.mem_takeWhile_imp]

theorem toPascal_append_of_isDigit (h : ∀ d ∈ ds, isDigit d = true) (rest : List Char) :
    toPascal (ds ++ rest) = ds ++ toPascal rest := by
  rw [toPascal_eq_append, toPascal_eq_append rest, List.takeWhile_append_of_pos h,
    List.dropWhile_append_of_pos h, List.append_assoc]

theorem takeWhile_eq_nil_of_head? {p : Char → Bool} (h : ∀ c ∈ cs.head?, p c = false) :
    cs.takeWhile p = [] := by
  cases cs with
  | nil => rfl
  | cons c cs => rw [List.takeWhile_cons_of_neg (by simp [h c rfl])]

/-- A capital and the small letters behind it stay, unless there are none and a capital follows. -/
theorem toPascal_cons_append {ss : List Char} (hc : isCapital c = true)
    (hss : ∀ s ∈ ss, isSmall s = true) (hsmall : ∀ d ∈ rest.head?, isSmall d = false)
    (hcapital : ss = [] → ∀ d ∈ rest.head?, isCapital d = false) :
    toPascal (c :: (ss ++ rest)) = c :: (ss ++ toPascal rest) := by
  have hcapitals : (ss ++ rest).takeWhile isCapital = [] := by
    refine takeWhile_eq_nil_of_head? fun d hd => ?_
    cases ss with
    | nil => exact hcapital rfl d hd
    | cons s ss =>
      obtain rfl := Option.some.inj hd
      exact isCapital_eq_false_of_isSmall (hss s List.mem_cons_self)
  have hsmalls : (ss ++ rest).takeWhile isSmall = ss := by
    rw [List.takeWhile_append_of_pos hss, takeWhile_eq_nil_of_head? hsmall, List.append_nil]
  have hlength : wordLength (c :: (ss ++ rest.takeWhile isDigit) ++ rest.dropWhile isDigit) =
      (c :: (ss ++ rest.takeWhile isDigit)).length := by
    rw [List.cons_append, List.append_assoc, List.takeWhile_append_dropWhile]
    simp only [wordLength, List.takeWhile_cons_of_pos hc, hcapitals, List.length_cons,
      List.length_nil, Nat.zero_add, Nat.reduceLeDiff, List.drop_succ_cons, List.drop_zero, hsmalls,
      false_and, if_false, Nat.add_comm 1, List.drop_left', List.length_append]
    omega
  have hdigits : ∀ d ∈ rest.takeWhile isDigit, isDigit d = true := fun d => List.mem_takeWhile_imp
  have happend := toPascal_append (List.cons_ne_nil _ _) hlength
  rw [List.cons_append, List.append_assoc, List.takeWhile_append_dropWhile] at happend
  rw [happend, capitalize, toCapital_of_isCapital hc, List.map_append,
    map_toSmall_of_isDigit hdigits, List.map_congr_left fun s hs => toSmall_of_isSmall (hss s hs),
    List.map_id', toPascal_eq_append rest, List.cons_append, List.append_assoc]

/-- A capital in front of a capitalised word is a word of its own. -/
theorem toPascal_cons_cons {d s : Char} (hc : isCapital c = true) (hd : isCapital d = true)
    (hs : isSmall s = true) (rest : List Char) :
    toPascal (c :: d :: s :: rest) = c :: toPascal (d :: s :: rest) := by
  have hlength : wordLength ([c] ++ d :: s :: rest) = [c].length := by
    simp [wordLength, hc, hd, hs, isCapital_eq_false_of_isSmall hs]
  have happend := toPascal_append (List.cons_ne_nil _ _) hlength
  rwa [capitalize, toCapital_of_isCapital hc] at happend

/-- Of two capitals that no small letter follows the second becomes a small letter. -/
theorem exists_toPascal_cons {d : Char} (hc : isCapital c = true) (hd : isCapital d = true)
    (hrest : ∀ s ∈ rest.head?, isSmall s = false) :
    ∃ cs, toPascal (c :: d :: rest) = c :: toSmall d :: cs := by
  obtain ⟨n, hlength⟩ : ∃ n, wordLength (c :: d :: rest) = n + 2 := by
    refine Nat.exists_eq_add_of_le' ?_
    cases hcapitals : rest.takeWhile isCapital with
    | nil =>
      simp [wordLength, hc, hd, hcapitals, takeWhile_eq_nil_of_head? hrest]
    | cons e more =>
      -- With a third capital the word may end one letter early, which leaves these two.
      simp only [wordLength, List.takeWhile_cons_of_pos hc, List.takeWhile_cons_of_pos hd, hcapitals,
        List.length_cons]
      split <;> omega
  rw [toPascal, words, hlength]
  exact ⟨_, by simp [capitalize, toCapital_of_isCapital hc]; rfl⟩

theorem wordLength_ne_zero (h : isWordChar c = true) (cs : List Char) :
    wordLength (c :: cs) ≠ 0 := by
  cases hcapital : isCapital c with
  | true =>
    simp only [wordLength, List.takeWhile_cons_of_pos hcapital, List.length_cons]
    split <;> omega
  | false =>
    cases hsmall : isSmall c with
    | true => simp [wordLength, hcapital, hsmall]
    | false =>
      have hdigit : isDigit c = true := by simpa [isWordChar, hcapital, hsmall] using h
      simp [wordLength, hcapital, hsmall, hdigit]

theorem head?_toPascal (h : isWordChar c = true) (cs : List Char) :
    (toPascal (c :: cs)).head? = some (toCapital c) := by
  obtain ⟨n, hn⟩ := Nat.exists_eq_succ_of_ne_zero (wordLength_ne_zero h cs)
  rw [toPascal, words, hn]
  rfl

/-! ## Words in Pascal case -/

/-- The number of letters of a word. -/
def letterCount (w : List Char) : Nat := w.countP fun c => !isDigit c

/-- A word that is a letter, and a word with a single letter, which are read as one when nothing
stands between them. -/
def Merges (w v : List Char) : Prop := w.length = 1 ∧ letterCount w = 1 ∧ letterCount v = 1

instance (w v : List Char) : Decidable (Merges w v) := inferInstanceAs (Decidable (_ ∧ _))

/-- A word in Pascal case: digits, or a capital with small letters and digits behind it. -/
inductive Titled : List Char → Prop
  | digits {ds : List Char} (hne : ds ≠ []) (hds : ∀ d ∈ ds, isDigit d = true) : Titled ds
  | letters {c : Char} {ss ds : List Char} (hc : isCapital c = true)
      (hss : ∀ s ∈ ss, isSmall s = true) (hds : ∀ d ∈ ds, isDigit d = true) :
      Titled (c :: (ss ++ ds))

theorem Titled.isWordChar (h : Titled w) (hc : c ∈ w) : isWordChar c = true := by
  cases h with
  | digits _ hds => simp [Text.isWordChar, hds c hc]
  | letters hcapital hss hds =>
    rcases List.mem_cons.1 hc with rfl | hc
    · simp [Text.isWordChar, hcapital]
    · rcases List.mem_append.1 hc with hc | hc
      · simp [Text.isWordChar, hss c hc]
      · simp [Text.isWordChar, hds c hc]

theorem letterCount_of_isDigit (h : ∀ d ∈ ds, isDigit d = true) : letterCount ds = 0 := by
  rw [letterCount, List.countP_eq_zero]
  exact fun d hd => by simp [h d hd]

theorem letterCount_letters {ss : List Char} (hc : isCapital c = true)
    (hss : ∀ s ∈ ss, isSmall s = true) (hds : ∀ d ∈ ds, isDigit d = true) :
    letterCount (c :: (ss ++ ds)) = ss.length + 1 := by
  have hsmalls : ss.countP (fun s => !isDigit s) = ss.length := by
    rw [List.countP_eq_length]
    exact fun s hs => by simp [isDigit_eq_false_of_letter (.inr (hss s hs))]
  have hdigits := letterCount_of_isDigit hds
  rw [letterCount] at hdigits ⊢
  rw [List.countP_cons_of_pos (by simp [isDigit_eq_false_of_letter (.inl hc)]),
    List.countP_append, hsmalls, hdigits]

theorem head?_flatten_of_titled (h : ∀ w ∈ ws, Titled w) :
    ∀ c ∈ ws.flatten.head?, isSmall c = false := by
  cases ws with
  | nil => simp
  | cons w ws =>
    cases h w List.mem_cons_self with
    | digits hne hds =>
      obtain ⟨d, ds, rfl⟩ := List.exists_cons_of_ne_nil hne
      intro c hc
      obtain rfl := Option.some.inj hc
      exact (not_letter_of_isDigit (hds d List.mem_cons_self)).2
    | letters hc =>
      intro c' hc'
      obtain rfl := Option.some.inj hc'
      exact isSmall_eq_false_of_isCapital hc

/-- A capital stays as it is in front of words of which the first has no letters or several. -/
theorem toPascal_cons_flatten (hc : isCapital c = true) (hws : ∀ v ∈ ws, Titled v)
    (hapart : ∀ v ∈ ws.head?, letterCount v ≠ 1) :
    toPascal (c :: ws.flatten) = c :: toPascal ws.flatten := by
  have hsmall := head?_flatten_of_titled hws
  cases ws with
  | nil => exact toPascal_cons_append hc (List.forall_mem_nil _) hsmall (by simp)
  | cons v ws =>
    cases hws v List.mem_cons_self with
    | digits hne hds =>
      obtain ⟨d, ds, rfl⟩ := List.exists_cons_of_ne_nil hne
      have hcapital := (not_letter_of_isDigit (hds d List.mem_cons_self)).1
      exact toPascal_cons_append hc (List.forall_mem_nil _) hsmall (by simpa using hcapital)
    | @letters e ss ds he hss hds =>
      cases ss with
      | nil => exact absurd (letterCount_letters he hss hds) (hapart _ rfl)
      | cons s ss => exact toPascal_cons_cons hc he (hss s List.mem_cons_self) _

/-- A word in front of others stays as it is, unless it merges with the first of them. -/
theorem toPascal_append_flatten (hw : Titled w) (hws : ∀ v ∈ ws, Titled v)
    (hapart : ∀ v ∈ ws.head?, ¬ Merges w v) :
    toPascal (w ++ ws.flatten) = w ++ toPascal ws.flatten := by
  cases hw with
  | digits _ hds => exact toPascal_append_of_isDigit hds _
  | @letters c ss ds hc hss hds =>
    cases ds with
    | cons d ds =>
      obtain ⟨hcapital, hsmall⟩ := not_letter_of_isDigit (hds d List.mem_cons_self)
      calc
        toPascal (c :: (ss ++ d :: ds) ++ ws.flatten)
        _ = toPascal (c :: (ss ++ (d :: ds ++ ws.flatten))) := by simp
        _ = c :: (ss ++ toPascal (d :: ds ++ ws.flatten)) :=
          toPascal_cons_append hc hss (by simpa using hsmall) (by simpa using fun _ => hcapital)
        _ = c :: (ss ++ d :: ds) ++ toPascal ws.flatten := by
          rw [toPascal_append_of_isDigit hds]
          simp
    | nil =>
      rw [List.append_nil] at hapart ⊢
      cases ss with
      | nil => exact toPascal_cons_flatten hc hws fun v hv hone =>
          hapart v hv ⟨rfl, letterCount_letters hc hss hds, hone⟩
      | cons s ss => exact toPascal_cons_append hc hss (head?_flatten_of_titled hws) (by simp)

/-- The second of two words that merge loses its capital. -/
theorem toPascal_append_ne {v : List Char} (hw : Titled w) (hv : Titled v) (h : Merges w v)
    (hrest : ∀ s ∈ rest.head?, isSmall s = false) :
    toPascal (w ++ (v ++ rest)) ≠ w ++ (v ++ rest) := by
  obtain ⟨hlength, hletter, hone⟩ := h
  cases hw with
  | digits _ hds =>
    rw [letterCount_of_isDigit hds] at hletter
    cases hletter
  | @letters c ss ds hc hss hds =>
    obtain ⟨rfl, rfl⟩ : ss = [] ∧ ds = [] := by simpa using hlength
    cases hv with
    | digits _ hds' =>
      rw [letterCount_of_isDigit hds'] at hone
      cases hone
    | @letters d ss' ds' hd hss' hds' =>
      rw [letterCount_letters hd hss' hds'] at hone
      obtain rfl : ss' = [] := by simpa using hone
      have hbehind : ∀ s ∈ (ds' ++ rest).head?, isSmall s = false := by
        cases ds' with
        | nil => exact hrest
        | cons e ds' =>
          intro s hs
          obtain rfl := Option.some.inj hs
          exact (not_letter_of_isDigit (hds' e List.mem_cons_self)).2
      obtain ⟨cs, hcs⟩ := exists_toPascal_cons hc hd hbehind
      intro heq
      have hboth : c :: toSmall d :: cs = c :: d :: (ds' ++ rest) := hcs.symm.trans heq
      have hsame : toSmall d = d := (List.cons.inj (List.cons.inj hboth).2).1
      have hsmall := isSmall_toSmall hd
      rw [hsame, isSmall_eq_false_of_isCapital hd] at hsmall
      cases hsmall

/-- Words in Pascal case keep their spelling just when no two neighbours merge. -/
theorem toPascal_flatten_eq_iff (h : ∀ w ∈ ws, Titled w) :
    toPascal ws.flatten = ws.flatten ↔ ws.IsChain fun w v => ¬ Merges w v := by
  induction ws with
  | nil => simp [toPascal, words]
  | cons w ws ih =>
    rw [List.forall_mem_cons] at h
    rw [List.isChain_cons, ← ih h.2, List.flatten_cons]
    -- The first word stays in front of the others, or the second letter is lost at once.
    by_cases hapart : ∀ v ∈ ws.head?, ¬ Merges w v
    · rw [toPascal_append_flatten h.1 h.2 hapart, List.append_cancel_left_eq]
      exact (and_iff_right hapart).symm
    · refine iff_of_false ?_ fun hboth => hapart hboth.1
      push Not at hapart
      obtain ⟨v, hv, hmerges⟩ := hapart
      cases ws with
      | nil => cases hv
      | cons v' ws =>
        obtain rfl := Option.some.inj hv
        rw [List.forall_mem_cons] at h
        exact toPascal_append_ne h.1 h.2.1 hmerges (head?_flatten_of_titled h.2.2)

/-! ## Words of a text -/

theorem letterCount_capitalize (w : List Char) : letterCount (capitalize w) = letterCount w := by
  cases w with
  | nil => rfl
  | cons c w =>
    simp only [letterCount, capitalize, List.countP_cons, List.countP_map, Function.comp_def,
      isDigit_toSmall, isDigit_toCapital]

theorem length_capitalize (w : List Char) : (capitalize w).length = w.length := by
  cases w <;> simp [capitalize]

theorem merges_capitalize_iff {v : List Char} :
    Merges (capitalize w) (capitalize v) ↔ Merges w v := by
  simp only [Merges, letterCount_capitalize, length_capitalize]

/-- A word is made of letters and digits behind them. -/
theorem exists_letters_of_take (cs : List Char) :
    ∃ ls ds, cs.take (wordLength cs) = ls ++ ds ∧
      (∀ c ∈ ls, isCapital c = true ∨ isSmall c = true) ∧ ∀ d ∈ ds, isDigit d = true := by
  unfold wordLength
  dsimp only
  split
  · exact ⟨_, [], (List.append_nil _).symm, fun c hc =>
      .inl (mem_take_takeWhile (List.take_subset_take_left cs (Nat.sub_le _ _) hc)), by simp⟩
  · rw [List.take_add, List.take_add]
    refine ⟨_, _, rfl, fun c hc => ?_, fun d => mem_take_takeWhile⟩
    exact (List.mem_append.1 hc).imp mem_take_takeWhile mem_take_takeWhile

theorem exists_letters_of_mem_words (h : w ∈ words cs) :
    ∃ ls ds, w = ls ++ ds ∧ (∀ c ∈ ls, isCapital c = true ∨ isSmall c = true) ∧
      ∀ d ∈ ds, isDigit d = true := by
  fun_induction words cs with
  | case1 => cases h
  | case2 _ _ _ ih => exact ih h
  | case3 c cs n hlength ih =>
    rcases List.mem_cons.1 h with rfl | h
    · have hletters := exists_letters_of_take (c :: cs)
      rwa [hlength] at hletters
    · exact ih h

theorem titled_capitalize (h : w ∈ words cs) : Titled (capitalize w) := by
  have hne := ne_nil_of_mem_words h
  obtain ⟨ls, ds, rfl, hls, hds⟩ := exists_letters_of_mem_words h
  cases ls with
  | nil =>
    obtain ⟨d, ds, rfl⟩ := List.exists_cons_of_ne_nil hne
    rw [List.nil_append, capitalize, toCapital_of_isDigit (hds d List.mem_cons_self),
      map_toSmall_of_isDigit fun e he => hds e (List.mem_cons_of_mem _ he)]
    exact .digits (List.cons_ne_nil _ _) hds
  | cons c ls =>
    rw [List.forall_mem_cons] at hls
    rw [List.cons_append, capitalize, List.map_append, map_toSmall_of_isDigit hds]
    exact .letters (isCapital_toCapital_of_letter hls.1)
      (List.forall_mem_map.2 fun l hl => isSmall_toSmall_of_letter (hls.2 l hl)) hds

/-- Pascal case keeps the spelling of a text in Pascal case just when no two words of the text
merge. -/
theorem toPascal_toPascal_eq_iff :
    toPascal (toPascal cs) = toPascal cs ↔ (words cs).IsChain fun w v => ¬ Merges w v := by
  have htitled : ∀ w ∈ (words cs).map capitalize, Titled w := by
    intro w hw
    obtain ⟨v, hv, rfl⟩ := List.mem_map.1 hw
    exact titled_capitalize hv
  have hiff := toPascal_flatten_eq_iff htitled
  simp only [List.isChain_map, merges_capitalize_iff] at hiff
  exact hiff

theorem convert_pascal_convert_eq_iff {s : String} :
    Case.pascal.convert (Case.pascal.convert s) = Case.pascal.convert s ↔
      (words s.toList).IsChain fun w v => ¬ Merges w v := by
  rw [← toPascal_toPascal_eq_iff, Case.convert, Case.convert, String.ofList_inj,
    String.toList_ofList]
  rfl

theorem isWordChar_of_mem_convert_pascal {s : String} (h : c ∈ (Case.pascal.convert s).toList) :
    isWordChar c = true := by
  rw [Case.convert, String.toList_ofList] at h
  obtain ⟨w', hw', hc⟩ := List.mem_flatten.1 h
  obtain ⟨w, hw, rfl⟩ := List.mem_map.1 hw'
  exact (titled_capitalize hw).isWordChar hc

end Typegen.Text
