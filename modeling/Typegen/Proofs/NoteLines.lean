import Mathlib.Data.List.Chain
import Typegen.Proofs.DocComments
import Typegen.Proofs.Notes
import Typegen.Proofs.PythonImports

/-!
# Remarks as comments

The remarks at the top of a file stand behind comment marks, one on a line, and tell the places of
nodes.  In the keys of a place only slashes and tildes are escaped, so that a line break in a key ends
the comment.  `Target.guards` tells which keys do no harm: a remark is a comment just when all keys on
the way to its node are such keys (`notes_in_comments_iff`).
-/

namespace Typegen

open Schema (Node Primitive)

namespace Target

/-! ## Lines of code -/

/-- Whether a character ends a line of code. -/
def isLineBreak : Target → Char → Bool
  | typescript, c => c ∈ ['\n', '\r', '\u2028', '\u2029']
  | go, c => c = '\n'
  | java, c | python, c => c ∈ ['\n', '\r']

/-- What a comment up to the end of its line begins with. -/
def commentMark : Target → String
  | python => "#"
  | _ => "//"

/-- The lines of a text. -/
def lines (t : Target) (text : String) : List (List Char) := text.toList.splitOnP t.isLineBreak

/-- The lines of a remark at the top of a file. -/
def noteLines (t : Target) (note : String) : List (List Char) :=
  t.lines (t.commentMark ++ " Note: " ++ note)

/-- A line with something on it is a comment. -/
def InComment (t : Target) (line : List Char) : Prop := line = [] ∨ t.commentMark.toList <+: line

instance (t : Target) (line : List Char) : Decidable (t.InComment line) :=
  inferInstanceAs (Decidable (_ ∨ _))

/-- The lines behind the line breaks of a text are comments. -/
def Commented (t : Target) : List Char → Prop
  | [] => True
  | c :: cs =>
    (t.isLineBreak c = true → t.InComment (cs.takeWhile (!t.isLineBreak ·))) ∧ Commented t cs

/-- Every line break of a key stands in front of another one or of a comment mark.  Slashes are
escaped when a key is written, so that only a mark without slashes counts. -/
def guards (t : Target) : List Char → Bool
  | [] => true
  | c :: cs =>
    (!t.isLineBreak c || cs.head?.any fun d => t.isLineBreak d || (t = python && d = '#')) &&
      guards t cs

section

variable {t : Target} {c : Char} {cs rest : List Char}

theorem isLineBreak_newline (t : Target) : t.isLineBreak '\n' = true := by
  cases t <;> rfl

theorem isLineBreak_of_all (h : cs.all (!t.isLineBreak ·) = true) :
    ∀ c ∈ cs, t.isLineBreak c = false := by
  simpa using h

theorem isLineBreak_commentMark (t : Target) :
    ∀ c ∈ t.commentMark.toList, t.isLineBreak c = false :=
  isLineBreak_of_all (by cases t <;> decide)

theorem head?_splitOnP {α : Type} (p : α → Bool) (xs : List α) :
    (xs.splitOnP p).head? = some (xs.takeWhile (!p ·)) := by
  induction xs with
  | nil => rfl
  | cons x xs ih =>
    rw [List.splitOnP_cons_eq_if_modifyHead, List.takeWhile_cons]
    cases p x with
    | true => rfl
    | false => simp [List.head?_modifyHead, ih]

theorem forall_mem_tail_lines_iff (t : Target) (cs : List Char) :
    (∀ line ∈ (cs.splitOnP t.isLineBreak).tail, t.InComment line) ↔ t.Commented cs := by
  induction cs with
  | nil => simp [Commented]
  | cons c cs ih =>
    rw [List.splitOnP_cons_eq_if_modifyHead, Commented, ← ih]
    cases hc : t.isLineBreak c with
    | false => simp [List.tail_modifyHead]
    | true =>
      obtain ⟨line, more, hlines⟩ := List.exists_cons_of_ne_nil (List.splitOnP_ne_nil t.isLineBreak cs)
      have hhead := head?_splitOnP t.isLineBreak cs
      rw [hlines, List.head?_cons, Option.some.injEq] at hhead
      simp [hlines, hhead]

theorem commented_append (h : ∀ c ∈ cs, t.isLineBreak c = false) :
    t.Commented (cs ++ rest) ↔ t.Commented rest := by
  induction cs with
  | nil => rfl
  | cons c cs ih =>
    rw [List.forall_mem_cons] at h
    rw [List.cons_append, Commented, ih h.2, h.1]
    simp

theorem inComment_takeWhile_iff : t.InComment (cs.takeWhile (!t.isLineBreak ·)) ↔
    cs = [] ∨ (∃ d ∈ cs.head?, t.isLineBreak d = true) ∨ t.commentMark.toList <+: cs := by
  have hmark : t.commentMark.toList <+: cs.takeWhile (!t.isLineBreak ·) ↔
      t.commentMark.toList <+: cs := by
    refine ⟨fun h => h.trans (List.takeWhile_prefix _), ?_⟩
    rintro ⟨more, rfl⟩
    rw [List.takeWhile_append_of_pos fun c hc => by simp [t.isLineBreak_commentMark c hc]]
    exact List.prefix_append _ _
  rw [InComment, hmark, ← or_assoc]
  refine or_congr_left ?_
  cases cs with
  | nil => simp
  | cons d cs => simp [List.takeWhile_cons]

/-! ## Keys in remarks -/

theorem escapeChars_cons_of_ne (htilde : c ≠ '~') (hslash : c ≠ '/') :
    Pointer.escapeChars (c :: cs) = c :: Pointer.escapeChars cs := by
  rw [Pointer.escapeChars]
  · exact htilde
  · exact hslash

theorem isLineBreak_escaped (hc : c = '~' ∨ c = '/') : t.isLineBreak c = false := by
  rcases hc with rfl | rfl <;> cases t <;> rfl

theorem exists_escapeChars (cs : List Char) (hc : c = '~' ∨ c = '/') : ∃ d, (d = '0' ∨ d = '1') ∧
    Pointer.escapeChars (c :: cs) = '~' :: d :: Pointer.escapeChars cs := by
  rcases hc with rfl | rfl
  · exact ⟨'0', .inl rfl, rfl⟩
  · exact ⟨'1', .inr rfl, rfl⟩

/-- What can stand behind a key in a remark. -/
def Divides (rest : List Char) : Prop := ∃ c ∈ rest.head?, c = '/' ∨ c = ':'

theorem commentMark_prefix_cons (hc : c ≠ '/') :
    t.commentMark.toList <+: c :: cs ↔ (t = python && c = '#') = true := by
  cases t <;> simp [commentMark, List.cons_prefix_cons, hc.symm, eq_comm]

/-- What stands behind a line break of a key is a comment if it begins with one inside the key. -/
theorem inComment_escapeChars_iff (hrest : Divides rest) (hmark : ¬ t.commentMark.toList <+: rest) :
    t.InComment ((Pointer.escapeChars cs ++ rest).takeWhile (!t.isLineBreak ·)) ↔
      (cs.head?.any fun d => t.isLineBreak d || (t = python && d = '#')) = true := by
  rw [inComment_takeWhile_iff]
  cases cs with
  | nil =>
    obtain ⟨c, hc, hdivides⟩ := hrest
    obtain ⟨more, rfl⟩ := List.head?_eq_some_iff.1 hc
    have hplain : t.isLineBreak c = false := by
      rcases hdivides with rfl | rfl <;> cases t <;> rfl
    simp [Pointer.escapeChars, hmark, hplain]
  | cons d cs =>
    by_cases hd : d = '~' ∨ d = '/'
    · obtain ⟨digit, -, hescape⟩ := exists_escapeChars cs hd
      have hplain := isLineBreak_escaped (t := t) hd
      have hother : d ≠ '#' := by rcases hd with rfl | rfl <;> decide
      rw [hescape, List.cons_append, commentMark_prefix_cons (by decide)]
      simp [hplain, hother, isLineBreak_escaped (t := t) (.inl rfl)]
    · rw [not_or] at hd
      rw [escapeChars_cons_of_ne hd.1 hd.2, List.cons_append, commentMark_prefix_cons hd.2]
      simp

theorem commented_escapeChars_iff (hrest : Divides rest)
    (hmark : (∃ c ∈ cs, t.isLineBreak c = true) → ¬ t.commentMark.toList <+: rest) :
    t.Commented (Pointer.escapeChars cs ++ rest) ↔ t.guards cs = true ∧ t.Commented rest := by
  induction cs with
  | nil => simp [Pointer.escapeChars, guards]
  | cons c cs ih =>
    specialize ih fun ⟨d, hd, hbreak⟩ => hmark ⟨d, List.mem_cons_of_mem _ hd, hbreak⟩
    by_cases hc : c = '~' ∨ c = '/'
    · obtain ⟨digit, hdigit, hescape⟩ := exists_escapeChars cs hc
      have hplain : ∀ d ∈ ['~', digit], t.isLineBreak d = false := isLineBreak_of_all (by
        rcases hdigit with rfl | rfl <;> cases t <;> decide)
      rw [hescape, guards, isLineBreak_escaped hc]
      exact (commented_append hplain).trans (ih.trans (by simp))
    · rw [not_or] at hc
      rw [escapeChars_cons_of_ne hc.1 hc.2, List.cons_append, Commented, ih, guards]
      cases hbreak : t.isLineBreak c with
      | false => simp
      | true =>
        rw [inComment_escapeChars_iff hrest (hmark ⟨c, List.mem_cons_self, hbreak⟩)]
        simp [and_assoc]

end

end Target

/-! ## Places of nodes -/

/-- The keywords below which there are nodes. -/
def nesting : List String :=
  ["definitions", "properties", "optionalProperties", "elements", "values", "mapping"]

/-- An empty key stands behind a keyword only. -/
def Pointer.Worded (p : Pointer) : Prop :=
  p.segments.IsChain fun key next => next = "" → key ∈ nesting

section

variable {p : Pointer} {word : String}

theorem Pointer.Worded.push_word (h : p.Worded) (hword : word ∈ nesting) : (p.push [word]).Worded := by
  have hne : word ≠ "" := ne_of_mem_of_not_mem hword (by decide)
  exact List.isChain_append.2 ⟨h, .singleton _, by simp [hne]⟩

theorem Pointer.Worded.push (h : p.Worded) (hword : word ∈ nesting) (key : String) :
    (p.push [word, key]).Worded := by
  have hne : word ≠ "" := ne_of_mem_of_not_mem hword (by decide)
  refine List.isChain_append.2 ⟨h, ?_, by simp [hne]⟩
  simp [hword]

end

theorem Schema.Node.Sound.worded {names : List String} {p : Pointer} {n : Node}
    (h : n.Sound names p) (hp : p.Worded) : ∀ m ∈ n.preorder, m.path.Worded := by
  induction h with
  | empty hpath | ref hpath | type hpath | enum hpath =>
    intro m hm
    rw [Node.preorder, List.mem_singleton] at hm
    subst hm hpath
    exact hp
  | elements hpath _ ih | values hpath _ ih =>
    intro m hm
    rw [Node.preorder, List.mem_cons] at hm
    rcases hm with rfl | hm
    · subst hpath
      exact hp
    · exact ih (hp.push_word (by decide)) m hm
  | properties hpath _ _ _ ihRequired ihOptional =>
    intro m hm
    rw [Node.preorder, List.mem_cons, List.mem_append, Node.mem_preorderEntries,
      Node.mem_preorderEntries] at hm
    rcases hm with rfl | ⟨e, he, hm⟩ | ⟨e, he, hm⟩
    · subst hpath
      exact hp
    · exact ihRequired e he (hp.push (by decide) e.1) m hm
    · exact ihOptional e he (hp.push (by decide) e.1) m hm
  | discriminator hpath _ _ _ ih =>
    intro m hm
    rw [Node.preorder, List.mem_cons, Node.mem_preorderEntries] at hm
    rcases hm with rfl | ⟨e, he, hm⟩
    · subst hpath
      exact hp
    · exact ih e he (hp.push (by decide) e.1) m hm

theorem Schema.Sound.worded {schema : Schema} (h : schema.Sound) :
    ∀ n ∈ schema.walk, n.path.Worded := by
  have hroot : Pointer.root.Worded := .nil
  intro n hn
  rw [Schema.walk_eq_append, List.mem_append, List.mem_flatMap] at hn
  rcases hn with ⟨body, hbody, hn⟩ | hn
  · obtain ⟨e, he, rfl⟩ := List.mem_map.1 hbody
    exact (h.definitions e he).worded (hroot.push (by decide) e.1) n hn
  · exact h.root.worded hroot n hn

/-! ## Remarks in comments -/

namespace Target

variable {t : Target}

/-- A text that no target sees a line break in. -/
def OnLine (s : String) : Prop := s.toList.all (· ∉ ['\n', '\r', '\u2028', '\u2029']) = true

instance (s : String) : Decidable (OnLine s) := inferInstanceAs (Decidable (_ = true))

variable {s note : String}

theorem OnLine.isLineBreak_eq (h : OnLine s) (t : Target) :
    ∀ c ∈ s.toList, t.isLineBreak c = false := by
  intro c hc
  have hother := List.all_eq_true.1 h c hc
  cases t <;> simp_all [isLineBreak]

theorem onLine_ofList {cs : List Char} (hs : s = String.ofList cs)
    (h : cs.all (· ∉ ['\n', '\r', '\u2028', '\u2029']) = true) : OnLine s := by
  rwa [OnLine, hs, String.toList_ofList]

theorem OnLine.append {s' : String} (h : OnLine s) (h' : OnLine s') : OnLine (s ++ s') := by
  rw [OnLine, String.toList_append, List.all_append, h, h']
  rfl

theorem onLine_nesting : ∀ word ∈ nesting, OnLine word := by decide

theorem onLine_label : ∀ p ∈ Primitive.all, OnLine p.label := by decide

theorem onLine_spelling : ∀ t ∈ all, ∀ p ∈ Primitive.all, OnLine (t.spelling p) := by
  decide

theorem onLine_loss {p : Primitive} {reason : String} (h : t.loss p = some reason) :
    OnLine reason := by
  cases t with
  | typescript =>
    change TypeScript.loss p = some reason at h
    unfold TypeScript.loss at h
    split at h <;> cases h <;> exact onLine_ofList rfl (by decide)
  | python =>
    change Python.loss p = some reason at h
    unfold Python.loss at h
    split at h <;> cases h
    exact onLine_ofList rfl (by decide)
  | go | java => cases h

theorem onLine_remarkOn {p : Primitive} {reason : String} (h : t.loss p = some reason) :
    OnLine (t.remarkOn p reason) := by
  have hlabel := onLine_label p (Primitive.mem_all p)
  have hspelling := onLine_spelling t t.mem_all p (Primitive.mem_all p)
  have hwords : OnLine " " ∧ OnLine " mapped to " ∧ OnLine " (" ∧ OnLine ")" := by decide
  exact (((((hwords.1.append hlabel).append hwords.2.1).append hspelling).append
    hwords.2.2.1).append (onLine_loss h)).append hwords.2.2.2

theorem commented_of_onLine (h : OnLine s) : t.Commented s.toList := by
  rw [← List.append_nil s.toList, commented_append (h.isLineBreak_eq t)]
  trivial

/-- The keys of a place and what stands behind them, as in a remark. -/
theorem commented_segments_iff {segments : List String}
    (hsegments : segments.IsChain fun key next => next = "" → key ∈ nesting) {rest : List Char}
    (hrest : ∃ more, rest = ':' :: more) (hcommented : t.Commented rest) :
    t.Commented ((segments.flatMap fun s => '/' :: Pointer.escapeChars s.toList) ++ rest) ↔
      ∀ key ∈ segments, t.guards key.toList = true := by
  obtain ⟨more, rfl⟩ := hrest
  induction segments with
  | nil => simpa using hcommented
  | cons key segments ih =>
    have hslash : ∀ c ∈ ['/'], t.isLineBreak c = false := by simp [isLineBreak_escaped]
    rw [List.flatMap_cons, List.forall_mem_cons, ← ih hsegments.tail, List.append_assoc,
      List.cons_append, ← List.singleton_append, commented_append hslash]
    refine commented_escapeChars_iff ?_ fun hbreak => ?_
    · cases segments <;> simp [Divides]
    · cases segments with
      | nil =>
        rw [List.flatMap_nil, List.nil_append, commentMark_prefix_cons (by decide)]
        simp
      | cons next segments =>
        -- Behind a key with a line break there is no empty key, so there are no two slashes in a row.
        obtain ⟨c, hc, hbreak⟩ := hbreak
        have hnext : next ≠ "" := by
          rintro rfl
          have hkey := (List.isChain_cons_cons.1 hsegments).1 rfl
          rw [(onLine_nesting key hkey).isLineBreak_eq t c hc] at hbreak
          cases hbreak
        obtain ⟨d, ds, hds⟩ : ∃ d ds, Pointer.escapeChars next.toList = d :: ds := by
          refine List.exists_cons_of_ne_nil fun hnil => hnext ?_
          rw [← String.toList_eq_nil_iff, ← Pointer.unescape_escapeChars next.toList, hnil]
          rfl
        have hd : d ≠ '/' := by
          rintro rfl
          exact Pointer.slash_notMem_escapeChars next.toList (hds ▸ List.mem_cons_self)
        rw [List.flatMap_cons, hds]
        cases t <;> simp [commentMark, List.cons_prefix_cons, hd.symm]

theorem forall_mem_noteLines_iff :
    (∀ line ∈ t.noteLines note, t.InComment line) ↔ t.Commented note.toList := by
  have hmark : ∀ c ∈ (t.commentMark ++ " Note: ").toList, t.isLineBreak c = false :=
    isLineBreak_of_all (by cases t <;> decide)
  obtain ⟨line, more, hlines⟩ := List.exists_cons_of_ne_nil
    (List.splitOnP_ne_nil t.isLineBreak (t.commentMark ++ " Note: " ++ note).toList)
  have hline := head?_splitOnP t.isLineBreak (t.commentMark ++ " Note: " ++ note).toList
  have hiff := forall_mem_tail_lines_iff t (t.commentMark ++ " Note: " ++ note).toList
  rw [hlines, List.head?_cons, Option.some.injEq] at hline
  rw [hlines, List.tail_cons, String.toList_append, commented_append hmark] at hiff
  rw [noteLines, lines, hlines, List.forall_mem_cons, hiff, and_iff_right_iff_imp]
  intro _
  rw [hline, inComment_takeWhile_iff, String.append_assoc, String.toList_append]
  exact .inr (.inr (List.prefix_append _ _))

/-- The remark on a node is a comment just when the keys that lead to it keep it one. -/
theorem forall_mem_noteLines_remark?_iff {n : Node} (hn : n.path.Worded)
    (h : t.remark? n = some note) : (∀ line ∈ t.noteLines note, t.InComment line) ↔
      ∀ key ∈ n.path.segments, t.guards key.toList = true := by
  obtain ⟨info, p, reason, rfl, hreason, rfl⟩ := remark?_eq_some_iff.1 h
  have hcolon : OnLine ":" := by decide
  have hrest := commented_of_onLine (t := t) (hcolon.append (onLine_remarkOn hreason))
  have hhash : ∀ c ∈ ['#'], t.isLineBreak c = false := isLineBreak_of_all (by cases t <;> rfl)
  rw [forall_mem_noteLines_iff, String.append_assoc, String.toList_append, Pointer.text,
    String.toList_ofList, Pointer.chars, List.cons_append, ← List.singleton_append,
    commented_append hhash]
  exact commented_segments_iff hn ⟨_, by rw [String.toList_append]; rfl⟩ hrest

/-! ## The top of a file -/

theorem lines_joined (t : Target) {texts : List String} (h : texts ≠ []) :
    t.lines (joined texts) = texts.flatMap t.lines := by
  induction texts with
  | nil => exact absurd rfl h
  | cons text texts ih =>
    cases texts with
    | nil => rw [joined, String.intercalate_singleton, List.flatMap_singleton]
    | cons text' texts =>
      rw [List.flatMap_cons, ← ih (List.cons_ne_nil _ _), lines, ← List.singleton_append,
        toList_joined_append (by simp) (by simp), List.splitOnP_append_cons _ _ t.isLineBreak_newline,
        joined, String.intercalate_singleton]
      rfl

theorem exists_lines_layout (t : Target) {as : List String} (has : Framed as) (bs : List String) :
    ∃ after, t.lines (layout (as ++ bs)) = as.flatMap t.lines ++ after := by
  have hfront (cs : List Char) : Text.dropRightWhile (· = '\n') cs <+: cs := by
    rw [← List.reverse_suffix, Text.dropRightWhile, List.reverse_reverse]
    exact List.dropWhile_suffix _
  have hrest := hfront (bs.flatMap fun line => '\n' :: line.toList)
  rw [lines, toList_layout_append has, ← lines_joined t has.ne_nil]
  revert hrest
  cases Text.dropRightWhile (· = '\n') (bs.flatMap fun line => '\n' :: line.toList) with
  | nil => exact fun _ => ⟨[], by rw [List.append_nil, List.append_nil, lines]⟩
  | cons c rest =>
    intro hrest
    obtain rfl : c = '\n' := by
      cases bs with
      | nil => cases List.prefix_nil.1 hrest
      | cons line bs => exact (List.cons_prefix_cons.1 hrest).1
    exact ⟨_, List.splitOnP_append_cons _ _ t.isLineBreak_newline⟩

/-- The lines of the remarks at the top of a file stand one behind the other. -/
theorem exists_lines_heading (t : Target) (comment : Option String) {notes : List String}
    (hnotes : ∀ note ∈ notes, Closes note) (rest : List String) :
    ∃ before after, t.lines (layout (headingLines t.commentMark comment notes ++ rest)) =
      before ++ notes.flatMap t.noteLines ++ after := by
  by_cases hnil : notes = []
  · subst hnil
    exact ⟨_, [], by rw [List.flatMap_nil, List.append_nil, List.append_nil]⟩
  have hmark : Opens t.commentMark := by cases t <;> decide
  have hcomment : ∀ line ∈ (nonEmpty comment).toList.map (t.commentMark ++ " " ++ ·), Opens line := by
    intro line hline
    obtain ⟨text, -, rfl⟩ := List.mem_map.1 hline
    exact (hmark.append _).append _
  have hframed : Framed (notes.map (t.commentMark ++ " Note: " ++ ·)) := by
    constructor
    · obtain ⟨note, more, rfl⟩ := List.exists_cons_of_ne_nil hnil
      exact ⟨_, rfl, (hmark.append _).append _⟩
    · refine ⟨_, ?_, (hnotes _ (List.getLast_mem hnil)).append (t.commentMark ++ " Note: ")⟩
      rw [Option.mem_def, List.getLast?_map, List.getLast?_eq_some_getLast hnil]
      rfl
  obtain ⟨after, hafter⟩ := t.exists_lines_layout (Framed.prepend hcomment hframed) rest
  rw [List.flatMap_append, List.flatMap_map (t.commentMark ++ " Note: " ++ ·)] at hafter
  exact ⟨_, after, hafter⟩

theorem closes_remark? {n : Node} (h : t.remark? n = some note) : Closes note := by
  obtain ⟨info, p, reason, rfl, -, rfl⟩ := remark?_eq_some_iff.1 h
  have hend : Closes ")" := by decide
  exact (hend.append _).append _

end Target

namespace Mapping

variable {backend : Backend} {names : Naming.Table} {schema : Schema} {graph : ReferenceGraph}
  {m : Mapped}

theorem mem_notes_iff (hbackend : backend.Complete) (hsound : schema.Sound)
    (hsuits : names.Suits schema) (h : mapSchema backend names schema graph = .ok m) {note : String} :
    note ∈ m.notes ↔ ∃ n ∈ schema.walk, backend.target.remark? n = some note := by
  have hperm := notes_of_mapSchema hbackend hsound hsuits h
  have hroot := notes_of_rootType hbackend hsound h
  have hnotes : note ∈ m.notes ↔
      note ∈ m.declarations.flatMap Declaration.allNotes ∨ note ∈ m.rootType.allNotes := by
    obtain ⟨dss, t, rest, -, -, rfl⟩ := mapSchema_eq_ok.1 h
    rw [Declaration.collectNotes, List.mem_eraseDups, List.flatMap_append, List.mem_append,
      Declaration.flatMap_walkTypes, List.flatMap_singleton]
    rfl
  rw [hnotes, hperm.mem_iff, ← List.mem_filterMap]
  exact or_iff_left_of_imp fun hmem => hroot hmem

end Mapping

namespace Target

/-- The top of a file is written whenever a target remarks on some types. -/
theorem exists_renderHeading {t : Target} {p : Primitive} (hp : t.loss p ≠ none)
    {names : Naming.Table} {ds : List Declaration} (hds : ∀ d ∈ ds, d.Shaped t names)
    (setting : Setting) (notes : List String) : ∃ rest, t.renderHeading setting ds notes =
      .ok (layout (headingLines t.commentMark setting.comment notes ++ rest)) := by
  cases t with
  | go | java => exact absurd rfl hp
  | typescript => exact ⟨[], by rw [List.append_nil]; rfl⟩
  | python =>
    have hdecoder : ∀ d ∈ ds, ∀ f : Field, f.type ∈ d.types →
        ∃ decoder, Python.fieldDecoder (Declaration.byName ds) f = .ok decoder := by
      intro d hd f htype
      rcases Python.fieldDecoder_cases hds ((hds d hd).types _ htype) with h | ⟨_, _, -, h⟩
      · exact ⟨_, h⟩
      · exact ⟨_, h⟩
    obtain ⟨lines, hlines, -⟩ :=
      Python.exists_imports (Python.exists_hasMetadata_of_fieldDecoder hdecoder)
    have hheading : python.renderHeading setting ds notes = _ :=
      bind_eq_ok.2 ⟨_, bind_eq_ok.2 ⟨lines, hlines, rfl⟩, rfl⟩
    rw [List.append_assoc] at hheading
    exact ⟨_, hheading⟩

/-- The remarks at the top of a file are comments just when every key on the way to a node that is
remarked on keeps them comments. -/
theorem notes_in_comments_iff {document : Json} {schema : Schema} {rules : Naming.Rules}
    {rootName : Json} {names : Naming.Table} (hdistinct : document.Distinct)
    (hresolve : Schema.resolve document = .ok schema)
    (hassign : Naming.assign rules schema rootName = .ok names) (graph : ReferenceGraph)
    (target : Target) {p : Primitive} (hlossy : target.loss p ≠ none) (setting : Setting) :
    ∃ m text, mapSchema { target.backend with rules := rules } names schema graph = .ok m ∧
      target.renderHeading setting m.declarations m.notes = .ok text ∧
      (∃ before after, target.lines text = before ++ m.notes.flatMap target.noteLines ++ after) ∧
      ((∀ line ∈ m.notes.flatMap target.noteLines, target.InComment line) ↔
        ∀ n ∈ schema.walk, target.remark? n ≠ none →
          ∀ key ∈ n.path.segments, target.guards key.toList = true) := by
  have hsound := Schema.sound_of_resolve hdistinct hresolve
  have hsuits := Naming.Table.suits_of_assign hassign
  have hbackend := target.complete_backend rules
  obtain ⟨m, hm, hshaped⟩ := Mapping.exists_shaped hdistinct hresolve hassign target graph
  have hnotes {note : String} : note ∈ m.notes ↔ ∃ n ∈ schema.walk, target.remark? n = some note :=
    Mapping.mem_notes_iff hbackend hsound hsuits hm
  obtain ⟨rest, hheading⟩ := exists_renderHeading hlossy hshaped setting m.notes
  refine ⟨m, _, hm, hheading, target.exists_lines_heading _ (fun note hnote => ?_) rest, ?_⟩
  · obtain ⟨n, -, hn⟩ := hnotes.1 hnote
    exact closes_remark? hn
  · simp only [List.forall_mem_flatMap, hnotes]
    constructor
    · intro h n hn hremark
      obtain ⟨note, hnote⟩ := Option.ne_none_iff_exists'.1 hremark
      exact (forall_mem_noteLines_remark?_iff (hsound.worded n hn) hnote).1 (h note ⟨n, hn, hnote⟩)
    · rintro h note ⟨n, hn, hnote⟩
      refine (forall_mem_noteLines_remark?_iff (hsound.worded n hn) hnote).2 (h n hn ?_)
      rw [hnote]
      exact Option.some_ne_none _

/-- A document with one key. -/
def keyDocument (key : String) (p : Primitive) : Json := .object [
  ("properties", .object [(key, .object [("type", .string p.label)])])]

/-- The nodes of the document. -/
def keySchema (key : String) (p : Primitive) : Schema where
  definitions := []
  root := .properties ⟨.root, false, none, []⟩
    [(key, .type ⟨⟨["properties", key]⟩, false, none, []⟩ p)] [] false

/-- The names of the schema. -/
def keyNames (identifier key : String) : Naming.Table where
  root := "Root"
  definitions := []
  nodes := [(.root, .struct "Root" [⟨identifier, key⟩])]

theorem notes_in_comments_hash :
    Schema.resolve (keyDocument "a\n#b" .float32) = .ok (keySchema "a\n#b" .float32) ∧
    Naming.assign Python.rules (keySchema "a\n#b" .float32) (.string "Root") =
      .ok (keyNames "a_b" "a\n#b") ∧
    ∃ m text, mapSchema { python.backend with rules := Python.rules } (keyNames "a_b" "a\n#b")
        (keySchema "a\n#b" .float32) (.ofSchema (keySchema "a\n#b" .float32)) = .ok m ∧
      python.renderHeading { rootName := .string "Root" } m.declarations m.notes = .ok text ∧
      ∀ line ∈ m.notes.flatMap python.noteLines, python.InComment line := by
  have hdistinct : (keyDocument "a\n#b" .float32).Distinct := by simp [keyDocument, Json.keys]
  have hresolve : Schema.resolve (keyDocument "a\n#b" .float32) =
      .ok (keySchema "a\n#b" .float32) := by with_unfolding_all rfl
  have hassign : Naming.assign Python.rules (keySchema "a\n#b" .float32) (.string "Root") =
      .ok (keyNames "a_b" "a\n#b") := by with_unfolding_all rfl
  obtain ⟨m, text, hm, htext, -, hiff⟩ := notes_in_comments_iff hdistinct hresolve hassign
    (.ofSchema (keySchema "a\n#b" .float32)) python (p := .float32) (by decide)
    { rootName := .string "Root" }
  exact ⟨hresolve, hassign, m, text, hm, htext, hiff.2 (by with_unfolding_all decide)⟩

/-- What stands behind the line break of a key becomes code. -/
theorem note_leaves_comment :
    Schema.resolve (keyDocument "a\nb" .float32) = .ok (keySchema "a\nb" .float32) ∧
    Naming.assign TypeScript.rules (keySchema "a\nb" .float32) (.string "Root") =
      .ok (keyNames "a\nb" "a\nb") ∧
    ∃ m text, mapSchema typescript.backend (keyNames "a\nb" "a\nb") (keySchema "a\nb" .float32)
        (.ofSchema (keySchema "a\nb" .float32)) = .ok m ∧
      typescript.renderHeading { rootName := .string "Root" } m.declarations m.notes = .ok text ∧
      typescript.lines text = ["// Note: #/properties/a".toList,
        "b: float32 mapped to number (TypeScript has no 32-bit float type)".toList] ∧
      ¬ typescript.InComment
        "b: float32 mapped to number (TypeScript has no 32-bit float type)".toList := by
  refine ⟨by with_unfolding_all rfl, by with_unfolding_all rfl, _, _, rfl, rfl, ?_, by decide⟩
  decide

end Target

end Typegen
