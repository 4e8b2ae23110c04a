import Typegen.Proofs.DocComments

/-!
# Where documentation strings end

The description of a class is written between triple quotes, with every three quotes in a row escaped.
`docstring?` reads such a string.  Only quotes and backslashes right in front of the closing quotes can
move its end: how many there are decides whether the string holds the whole description
(`docstring_ends_iff`).
-/

namespace Typegen.Target.Python

open Text (breakQuotes escapeTripleQuotes)

/-- Three quotes. -/
def tripleQuote : List Char := ['"', '"', '"']

/-- A text up to the first three quotes in a row that are not escaped, and what stands behind them. -/
def splitLong : List Char → Option (List Char × List Char)
  | '"' :: '"' :: '"' :: rest => some ([], rest)
  | '\\' :: c :: rest => (splitLong rest).map fun r => ('\\' :: c :: r.1, r.2)
  | c :: rest => (splitLong rest).map fun r => (c :: r.1, r.2)
  | [] => none

/-- The inside of a string between triple quotes that a text begins with, and what stands behind it.
No null character can stand in it. -/
def docstring? : List Char → Option (List Char × List Char)
  | '"' :: '"' :: '"' :: rest => (splitLong rest).filter fun r => !r.1.contains '\x00'
  | _ => none

/-- A string with the given inside ends behind it. -/
def Ends (body rest : List Char) : Prop :=
  splitLong (body ++ (tripleQuote ++ rest)) = some (body, rest)

section

variable {c : Char} {body rest s : List Char}

theorem map_eq_some_append {x : Option (List Char × List Char)} (front : List Char) :
    (x.map fun r => (front ++ r.1, r.2)) = some (front ++ body, rest) ↔ x = some (body, rest) := by
  cases x <;> simp [Prod.ext_iff]

theorem ends_nil : Ends [] rest := rfl

theorem ends_escape : Ends ('\\' :: c :: body) rest ↔ Ends body rest :=
  map_eq_some_append ['\\', c]

theorem ends_plain (hquote : c ≠ '"') (hslash : c ≠ '\\') :
    Ends (c :: body) rest ↔ Ends body rest := by
  unfold Ends
  rw [List.cons_append, splitLong]
  · exact map_eq_some_append [c]
  · exact fun _ h => absurd h hquote
  · exact fun _ _ h => absurd h hslash

/-- A quote does not end a string with a character other than a quote behind it or behind the next. -/
theorem ends_quote (h : ∃ c ∈ body.take 2, c ≠ '"') : Ends ('"' :: body) rest ↔ Ends body rest := by
  unfold Ends
  rw [List.cons_append, splitLong]
  · exact map_eq_some_append ['"']
  · intro more _ heq
    obtain ⟨c, hc, hne⟩ := h
    have htake : (body ++ (tripleQuote ++ rest)).take 2 = ['"', '"'] := by rw [heq]; rfl
    have hinit : body.take 2 <+: ['"', '"'] := by
      rw [← htake, List.take_append]
      exact List.prefix_append _ _
    have := hinit.subset hc
    simp [hne] at this
  · intro _ _ h
    exact absurd h (by decide)

/-! ## Descriptions between triple quotes -/

/-- A description, with its runs of three quotes escaped, ends where it should. -/
def Kept (s rest : List Char) : Prop := Ends (breakQuotes s) rest

theorem breakQuotes_of_ne (hc : c ≠ '"') : breakQuotes (c :: s) = c :: breakQuotes s := by
  rw [breakQuotes]
  exact fun _ h => absurd h hc

theorem breakQuotes_quote (h : ¬ ['"', '"'] <+: s) : breakQuotes ('"' :: s) = '"' :: breakQuotes s := by
  rw [breakQuotes]
  rintro cs - rfl
  exact h ⟨cs, rfl⟩

theorem kept_plain (hquote : c ≠ '"') (hslash : c ≠ '\\') : Kept (c :: s) rest ↔ Kept s rest := by
  rw [Kept, breakQuotes_of_ne hquote, ends_plain hquote hslash, Kept]

theorem kept_run : Kept ('"' :: '"' :: '"' :: s) rest ↔ Kept s rest := by
  rw [Kept, breakQuotes, ends_escape, ends_escape, ends_escape, Kept]

/-- Escaping leaves a character other than a quote at the head of a text or behind its first quote. -/
theorem exists_other_breakQuotes (h : ∃ c ∈ s.take 2, c ≠ '"') :
    ∃ c ∈ (breakQuotes s).take 2, c ≠ '"' := by
  obtain ⟨c, hc, hne⟩ := h
  match s with
  | [] => cases hc
  | d :: s =>
    by_cases hd : d = '"'
    · subst hd
      obtain ⟨s, rfl⟩ : ∃ more, s = c :: more := by
        cases s with
        | nil => simp [hne] at hc
        | cons e s =>
          obtain rfl : c = e := by simpa [hne] using hc
          exact ⟨s, rfl⟩
      rw [breakQuotes_quote (by simp [List.cons_prefix_cons, hne.symm]), breakQuotes_of_ne hne]
      exact ⟨c, by simp, hne⟩
    · rw [breakQuotes_of_ne hd]
      exact ⟨d, by simp, hd⟩

theorem kept_quote (h : ∃ c ∈ s.take 2, c ≠ '"') : Kept ('"' :: s) rest ↔ Kept s rest := by
  have hrun : ¬ ['"', '"'] <+: s := by
    rintro ⟨more, rfl⟩
    simp at h
  rw [Kept, breakQuotes_quote hrun, ends_quote (exists_other_breakQuotes h), Kept]

theorem kept_escape (hc : c ≠ '"') : Kept ('\\' :: c :: s) rest ↔ Kept s rest := by
  rw [Kept, breakQuotes_of_ne (by decide), breakQuotes_of_ne hc, ends_escape, Kept]

theorem kept_escape_quote (h : ¬ ['"', '"'] <+: s) : Kept ('\\' :: '"' :: s) rest ↔ Kept s rest := by
  rw [Kept, breakQuotes_of_ne (by decide), breakQuotes_quote h, ends_escape, Kept]

/-- The first quote of a run behind a backslash is not escaped, but the other two are. -/
theorem kept_escape_run : Kept ('\\' :: '"' :: '"' :: '"' :: s) rest ↔ Kept s rest := by
  rw [Kept, breakQuotes_of_ne (by decide), breakQuotes, ends_escape,
    ends_quote ⟨'\\', by simp, by decide⟩, ends_escape, ends_escape, Kept]

theorem not_kept_slash : ¬ Kept ['\\'] rest := by
  intro h
  obtain ⟨r, -, hr⟩ := Option.map_eq_some_iff.1 h
  cases hr

theorem not_kept_quote : ¬ Kept ['"'] rest := by
  intro h
  cases h

theorem not_kept_quotes : ¬ Kept ['"', '"'] rest := by
  intro h
  cases h

/-! ## The end of a description -/

/-- The number of quotes at the end of a text. -/
def quotesBehind (cs : List Char) : Nat := (cs.reverse.takeWhile (· = '"')).length

/-- The number of backslashes in front of the quotes at the end of a text. -/
def slashesBehind (cs : List Char) : Nat :=
  ((cs.reverse.dropWhile (· = '"')).takeWhile (· = '\\')).length

/-- A run of three quotes at the end of a text is escaped as a whole, and a single quote is if it stands
behind an odd number of backslashes. -/
def Settled (slashes quotes : Nat) : Prop :=
  quotes = 0 ∧ slashes % 2 = 0 ∨ quotes = 1 ∧ slashes % 2 = 1 ∨ 0 < quotes ∧ quotes % 3 = 0

instance (slashes quotes : Nat) : Decidable (Settled slashes quotes) :=
  inferInstanceAs (Decidable (_ ∨ _))

theorem kept_replicate_quote : ∀ quotes, Kept (List.replicate quotes '"') rest ↔ quotes % 3 = 0
  | 0 => iff_of_true ends_nil rfl
  | 1 => iff_of_false not_kept_quote (by decide)
  | 2 => iff_of_false not_kept_quotes (by decide)
  | quotes + 3 => by
    simp only [List.replicate_succ]
    rw [kept_run, kept_replicate_quote quotes]
    omega

theorem kept_escape_replicate : ∀ quotes,
    Kept ('\\' :: List.replicate quotes '"') rest ↔ quotes = 1 ∨ 0 < quotes ∧ quotes % 3 = 0
  | 0 => iff_of_false not_kept_slash (by decide)
  | 1 => iff_of_true ((kept_escape_quote (by decide)).2 ends_nil) (by decide)
  | 2 => iff_of_false (fun h => not_kept_quote ((kept_escape_quote (by decide)).1 h)) (by decide)
  | quotes + 3 => by
    simp only [List.replicate_succ]
    rw [kept_escape_run, kept_replicate_quote quotes]
    omega

theorem kept_replicate (quotes : Nat) : ∀ slashes,
    Kept (List.replicate slashes '\\' ++ List.replicate quotes '"') rest ↔ Settled slashes quotes
  | 0 => by
    rw [List.replicate_zero, List.nil_append, kept_replicate_quote, Settled]
    omega
  | 1 => by
    rw [List.replicate_one, List.singleton_append, kept_escape_replicate, Settled]
    omega
  | slashes + 2 => by
    simp only [List.replicate_succ, List.cons_append]
    rw [kept_escape (by decide), kept_replicate quotes slashes, Settled, Settled]
    omega

/-- What a text ends with has no bearing on what is put behind it: it ends with no backslash, and with a
quote only in front of a backslash. -/
def Joins (front back : List Char) : Prop :=
  ∀ c ∈ front.getLast?, c ≠ '\\' ∧ (c = '"' → back.head? = some '\\')

theorem Joins.tail {front back : List Char} (h : Joins (c :: front) back) : Joins front back := by
  intro d hd
  refine h d ?_
  rw [Option.mem_def] at hd ⊢
  rw [List.getLast?_cons, hd, Option.getD_some]

variable {front back : List Char}

/-- A quote at the end is in front of a backslash. -/
theorem Joins.exists_slash (h : Joins front back) (hlast : front.getLast? = some '"') :
    ∃ more, back = '\\' :: more :=
  List.head?_eq_some_iff.1 ((h '"' hlast).2 rfl)

theorem Joins.run (h : Joins ('"' :: front) back) (hrun : ['"', '"'] <+: front ++ back) :
    ∃ more, front = '"' :: '"' :: more := by
  match front with
  | [] =>
    obtain ⟨more, rfl⟩ := h.exists_slash rfl
    exact absurd hrun (by simp [List.cons_prefix_cons])
  | [c] =>
    obtain rfl : '"' = c := (List.cons_prefix_cons.1 hrun).1
    obtain ⟨more, rfl⟩ := h.exists_slash rfl
    exact absurd hrun (by simp [List.cons_prefix_cons])
  | c :: d :: more =>
    obtain ⟨rfl, hrest⟩ := List.cons_prefix_cons.1 hrun
    obtain rfl : '"' = d := (List.cons_prefix_cons.1 hrest).1
    exact ⟨more, rfl⟩

theorem Joins.exists_other (h : Joins ('"' :: front) back) (hrun : ¬ ['"', '"'] <+: front ++ back) :
    ∃ c ∈ (front ++ back).take 2, c ≠ '"' := by
  match front with
  | [] =>
    obtain ⟨more, rfl⟩ := h.exists_slash rfl
    exact ⟨'\\', by simp, by decide⟩
  | [c] =>
    by_cases hc : c = '"'
    · subst hc
      obtain ⟨more, rfl⟩ := h.exists_slash rfl
      exact ⟨'\\', by simp, by decide⟩
    · exact ⟨c, by simp, hc⟩
  | c :: d :: more =>
    by_cases hc : c = '"'
    · by_cases hd : d = '"'
      · subst hc hd
        exact absurd ⟨more ++ back, rfl⟩ hrun
      · exact ⟨d, by simp, hd⟩
    · exact ⟨c, by simp, hc⟩

/-- The induction is on the front, as much of which is dropped as is read at once. -/
theorem kept_append (h : Joins front back) : Kept (front ++ back) rest ↔ Kept back rest := by
  induction hn : front.length using Nat.strong_induction_on generalizing front with
  | _ n ih =>
    subst hn
    match front with
    | [] => rfl
    | c :: front =>
      have shorter {more : List Char} (hmore : more <:+ front) (hjoins : Joins more back) :
          Kept (more ++ back) rest ↔ Kept back rest :=
        ih _ (Nat.lt_succ_of_le hmore.length_le) hjoins rfl
      by_cases hquote : c = '"'
      · subst hquote
        by_cases hrun : ['"', '"'] <+: front ++ back
        · obtain ⟨more, rfl⟩ := h.run hrun
          exact kept_run.trans (shorter ⟨['"', '"'], rfl⟩ h.tail.tail.tail)
        · exact (kept_quote (h.exists_other hrun)).trans (shorter (List.suffix_refl _) h.tail)
      by_cases hslash : c = '\\'
      · subst hslash
        match front with
        | [] => exact absurd rfl (h '\\' rfl).1
        | d :: front =>
          by_cases hd : d = '"'
          · subst hd
            by_cases hrun : ['"', '"'] <+: front ++ back
            · obtain ⟨more, rfl⟩ := h.tail.run hrun
              exact kept_escape_run.trans (shorter ⟨['"', '"', '"'], rfl⟩ h.tail.tail.tail.tail)
            · exact (kept_escape_quote hrun).trans (shorter ⟨['"'], rfl⟩ h.tail.tail)
          · exact (kept_escape hd).trans (shorter ⟨[d], rfl⟩ h.tail.tail)
      · exact (kept_plain hquote hslash).trans (shorter (List.suffix_refl _) h.tail)

theorem takeWhile_eq_replicate (c : Char) (cs : List Char) :
    cs.takeWhile (· = c) = List.replicate (cs.takeWhile (· = c)).length c := by
  refine List.eq_replicate_of_mem fun d hd => ?_
  simpa using List.mem_takeWhile_imp hd

theorem not_of_head?_dropWhile {p : Char → Bool} {cs : List Char}
    (h : (cs.dropWhile p).head? = some c) : p c = false := by
  have hnot := List.head?_dropWhile_not p cs
  rwa [h] at hnot

/-- A text is divided into what it ends with and a front that has no bearing on it. -/
theorem exists_front (cs : List Char) : ∃ front back, cs = front ++ back ∧ Joins front back ∧
    back = List.replicate (slashesBehind cs) '\\' ++ List.replicate (quotesBehind cs) '"' := by
  have hquotes := takeWhile_eq_replicate '"' cs.reverse
  have hslashes := takeWhile_eq_replicate '\\' (cs.reverse.dropWhile (· = '"'))
  refine ⟨((cs.reverse.dropWhile (· = '"')).dropWhile (· = '\\')).reverse,
    ((cs.reverse.dropWhile (· = '"')).takeWhile (· = '\\')).reverse ++
      (cs.reverse.takeWhile (· = '"')).reverse, ?_, fun c hc => ?_, ?_⟩
  · rw [← List.reverse_append, ← List.reverse_append, List.append_assoc,
      List.takeWhile_append_dropWhile, List.takeWhile_append_dropWhile, List.reverse_reverse]
  · rw [Option.mem_def, List.getLast?_reverse] at hc
    have hslash := not_of_head?_dropWhile hc
    refine ⟨by simpa using hslash, ?_⟩
    rintro rfl
    cases hn : slashesBehind cs with
    | zero =>
      -- Without backslashes the front would end with a quote that counts as one of those behind it.
      have hnil := List.length_eq_zero_iff.1 hn
      have hall := List.takeWhile_append_dropWhile (p := (· = '\\'))
        (l := cs.reverse.dropWhile (· = '"'))
      rw [hnil, List.nil_append] at hall
      rw [hall] at hc
      exact absurd (not_of_head?_dropWhile hc) (by decide)
    | succ n =>
      rw [hslashes, List.reverse_replicate, ← slashesBehind, hn]
      rfl
  · rw [hslashes, hquotes, List.reverse_replicate, List.reverse_replicate]
    rfl

theorem kept_iff_settled (s : List Char) :
    Kept s rest ↔ Settled (slashesBehind s) (quotesBehind s) := by
  obtain ⟨front, back, hs, hjoins, hback⟩ := exists_front s
  calc Kept s rest
    _ ↔ Kept (front ++ back) rest := by rw [← hs]
    _ ↔ Kept back rest := kept_append hjoins
    _ ↔ Settled (slashesBehind s) (quotesBehind s) := by rw [hback, kept_replicate]

theorem mem_breakQuotes (hquote : c ≠ '"') (hslash : c ≠ '\\') : c ∈ breakQuotes s ↔ c ∈ s := by
  fun_induction breakQuotes s with
  | case1 cs ih => simp [hquote, hslash, ih]
  | case2 d cs _ ih => simp [ih]
  | case3 => rfl

end

/-- A description of a class, as it is written. -/
def docstringOf (s : String) : List Char :=
  tripleQuote ++ (escapeTripleQuotes s).toList ++ tripleQuote

/-- A description that a string between triple quotes can hold as it is written. -/
def Enclosed (s : String) : Prop :=
  '\x00' ∉ s.toList ∧ Settled (slashesBehind s.toList) (quotesBehind s.toList)

instance (s : String) : Decidable (Enclosed s) := inferInstanceAs (Decidable (_ ∧ _))

theorem docstring?_docstringOf (s : String) (rest : List Char) :
    docstring? (docstringOf s ++ rest) = some ((escapeTripleQuotes s).toList, rest) ↔ Enclosed s := by
  have hread : docstring? (docstringOf s ++ rest) =
      (splitLong (breakQuotes s.toList ++ (tripleQuote ++ rest))).filter
        fun r => !r.1.contains '\x00' := by
    simp [docstringOf, escapeTripleQuotes, tripleQuote, docstring?]
  have hnull : '\x00' ∈ breakQuotes s.toList ↔ '\x00' ∈ s.toList :=
    mem_breakQuotes (by decide) (by decide)
  have hends : splitLong (breakQuotes s.toList ++ (tripleQuote ++ rest)) =
      some (breakQuotes s.toList, rest) ↔ Settled (slashesBehind s.toList) (quotesBehind s.toList) :=
    kept_iff_settled s.toList
  rw [hread, Option.filter_eq_some_iff, escapeTripleQuotes, String.toList_ofList, hends, and_comm]
  simp [Enclosed, hnull]

/-! ## Declarations with documentation strings -/

/-- The text of lines with a documentation string among them. -/
theorem toList_layout_docLines {pre post : List String} (hpre : ∃ line ∈ pre.head?, Opens line)
    {s : String} (hs : s ≠ "") : (layout (pre ++ docLines (some s) ++ post)).toList =
      (joined pre).toList ++ "\n    ".toList ++ docstringOf s ++
        Text.dropRightWhile (· = '\n') (("" :: post).flatMap fun line => '\n' :: line.toList) := by
  have hne : pre ≠ [] := by
    rintro rfl
    obtain ⟨line, hline, -⟩ := hpre
    cases hline
  have hlines : pre ++ docLines (some s) ++ post =
      pre ++ ["    \"\"\"" ++ escapeTripleQuotes s ++ "\"\"\""] ++ "" :: post := by
    simp [docLines, nonEmpty, hs]
  have hframed : Framed (pre ++ ["    \"\"\"" ++ escapeTripleQuotes s ++ "\"\"\""]) := by
    have hquotes : Closes "\"\"\"" := by decide
    refine ⟨?_, _, List.getLast?_concat .., hquotes.append _⟩
    rwa [List.head?_append_of_ne_nil _ hne]
  rw [hlines, toList_layout_append hframed, toList_joined_append_flatMap hne]
  simp [docstringOf, tripleQuote]

/-- The lines of a class with a documentation string are the same for every description but for that
string. -/
theorem exists_docLines {setting : Setting} {d : Declaration} (hd : d.isAlias = false)
    {lines : List String} (h : declarationLines setting d = .ok lines) :
    ∃ pre post, (∃ line ∈ pre.head?, Opens line) ∧ ∀ s ≠ "",
      declarationLines setting (d.describe (some s)) = .ok (pre ++ docLines (some s) ++ post) := by
  cases d with
  | struct header fields base additional =>
    obtain ⟨members, hmembers, -⟩ := bind_eq_ok.1 h
    obtain ⟨bases, hlines⟩ : ∃ bases : String, ∀ header : Header,
        classLines setting.declared header fields base =
          .ok (["@dataclass_json", "@dataclass", "class " ++ header.name ++ bases ++ ":"] ++
            docLines header.description ++ members ++
            if members.isEmpty && (nonEmpty header.description).isNone then ["    pass"] else []) :=
      ⟨_, fun header => bind_eq_ok.2 ⟨members, hmembers, rfl⟩⟩
    refine ⟨["@dataclass_json", "@dataclass", "class " ++ header.name ++ bases ++ ":"], members,
      ⟨_, rfl, by decide⟩, fun s hs => ?_⟩
    have hfiller : (nonEmpty (some s)).isNone = false := by simp [nonEmpty, hs]
    refine (hlines _).trans ?_
    simp only [hfiller, Bool.and_false, Bool.false_eq_true, if_false, List.append_nil]
  | enum header members =>
    have hopens : Opens "class " := by decide
    exact ⟨["class " ++ header.name ++ "(str, Enum):"], _, ⟨_, rfl, (hopens.append _).append _⟩,
      fun _ _ => rfl⟩
  | union header tagName tagWire variants =>
    refine ⟨["@dataclass", "class " ++ header.name ++ ":"],
      (unionLines { header with description := none } tagWire variants).drop 2,
      ⟨_, rfl, by decide⟩, fun _ _ => congrArg Except.ok ?_⟩
    simp [unionLines, docLines, nonEmpty]
  | synonym => cases hd

/-- The documentation string of a class ends at its closing quotes just when its description is not
followed by quotes or backslashes that change their meaning. -/
theorem docstring_ends_iff (setting : Setting) {d : Declaration} (hd : d.isAlias = false)
    {plain : String} (h : python.renderDeclaration setting d = .ok plain) :
    ∃ front rest, ∀ s ≠ "", ∃ text,
      python.renderDeclaration setting (d.describe (some s)) = .ok text ∧
      text.toList = front ++ docstringOf s ++ rest ∧
      ∀ more, docstring? (docstringOf s ++ (rest ++ more)) =
        some ((escapeTripleQuotes s).toList, rest ++ more) ↔ Enclosed s := by
  obtain ⟨lines, hlines, -⟩ := bind_eq_ok.1 h
  obtain ⟨pre, post, hpre, hdocs⟩ := exists_docLines hd hlines
  refine ⟨_, _, fun s hs => ⟨_, bind_eq_ok.2 ⟨_, hdocs s hs, rfl⟩, toList_layout_docLines hpre hs,
    fun more => docstring?_docstringOf s _⟩⟩

/-- A class that says what it greets with. -/
def greeting (description : String) : Declaration :=
  .struct { name := "Root", description := some description } [] none false

theorem docstring_ends_greeting : ∃ front rest text,
    python.renderDeclaration { rootName := .null } (greeting "\"\"\"hi\"\"\"") = .ok text ∧
    text.toList = front ++ docstringOf "\"\"\"hi\"\"\"" ++ rest ∧
    docstring? (docstringOf "\"\"\"hi\"\"\"" ++ (rest ++ [])) =
      some (("\\\"\\\"\\\"hi\\\"\\\"\\\"").toList, rest ++ []) := by
  obtain ⟨front, rest, h⟩ :=
    docstring_ends_iff { rootName := .null } (d := greeting "") rfl rfl
  obtain ⟨text, htext, htoList, hread⟩ := h "\"\"\"hi\"\"\"" (by decide)
  exact ⟨front, rest, text, htext, htoList, (hread []).2 (by decide)⟩

/-- The last quote of the description is read as the first of the closing quotes, so that one of them is
left behind the string. -/
theorem docstring_ends_early :
    python.renderDeclaration { rootName := .null } (greeting "say \"hi\"") =
      .ok "@dataclass_json\n@dataclass\nclass Root:\n    \"\"\"say \"hi\"\"\"\"" ∧
    docstring? "\"\"\"say \"hi\"\"\"\"".toList = some ("say \"hi".toList, ['"']) :=
  ⟨rfl, by decide⟩

end Typegen.Target.Python
