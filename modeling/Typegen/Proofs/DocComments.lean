import Typegen.Proofs.Comments
import Typegen.Proofs.Outcome
import Typegen.Target.Render

/-!
# Where documentation comments end

A description is written into a comment in front of a declaration or of a field.  `docComment?` reads
such a comment up to the first closing mark.  Whatever the description is, what has been read then
holds all of it, and what is left is the text without the description (`descriptions_enclosed`).
-/

namespace Typegen

namespace Text

variable {a b : Char} {cs ds : List Char}

theorem Lacks.append (hcs : Lacks a b cs) (hds : Lacks a b ds) (hhead : ds.head? ≠ some b) :
    Lacks a b (cs ++ ds) := by
  induction cs with
  | nil => exact hds
  | cons c cs ih =>
    rw [lacks_cons_iff] at hcs
    rw [List.cons_append, lacks_cons_iff]
    refine ⟨fun hc => ?_, ih hcs.2⟩
    cases cs with
    | nil => exact hhead
    | cons d cs => exact hcs.1 hc

theorem lacks_singleton (c : Char) : Lacks a b [c] := by
  intro h
  exact absurd h.length_le (by simp)

theorem sublist_breakClosing (cs : List Char) : cs.Sublist (breakClosing cs) := by
  fun_induction breakClosing cs with
  | case1 cs ih => exact ((ih.cons_cons '/').cons '\\').cons_cons '*'
  | case2 c cs _ ih => exact ih.cons_cons c
  | case3 => exact .slnil

theorem sublist_dropWhile {p : Char → Bool} (h : cs.Sublist ds) :
    (cs.dropWhile p).Sublist (ds.dropWhile p) := by
  induction h with
  | slnil => exact .slnil
  | @cons cs ds d h ih =>
    rw [List.dropWhile_cons]
    split
    · exact ih
    · exact ((List.dropWhile_suffix p).sublist.trans h).cons d
  | @cons_cons cs ds d h ih =>
    rw [List.dropWhile_cons, List.dropWhile_cons]
    split
    · exact ih
    · exact h.cons_cons d

theorem sublist_trimRight (h : cs.Sublist ds) : (trimRight cs).Sublist (trimRight ds) :=
  (sublist_dropWhile h.reverse).reverse

/-- What is between line breaks is not lost when the lines get something in front. -/
theorem intercalate_sublist_flatMap (front : List Char) (lines : List (List Char)) :
    (['\n'].intercalate lines).Sublist (lines.flatMap fun line => front ++ line ++ ['\n']) := by
  induction lines with
  | nil => exact .slnil
  | cons line lines ih =>
    have hfirst : line.Sublist (front ++ line) := List.sublist_append_right front line
    cases lines with
    | nil =>
      rw [List.intercalate_singleton, List.flatMap_singleton]
      exact hfirst.trans (List.sublist_append_left _ _)
    | cons line' lines =>
      rw [List.intercalate_cons_cons, List.flatMap_cons]
      exact (hfirst.append (List.Sublist.refl _)).append ih

end Text

/-- A declaration with another description. -/
def Declaration.describe (d : Declaration) (description : Option String) : Declaration :=
  match d with
  | .struct h fields base additional =>
    .struct { h with description := description } fields base additional
  | .enum h members => .enum { h with description := description } members
  | .union h tagName tagWire variants =>
    .union { h with description := description } tagName tagWire variants
  | .synonym h target => .synonym { h with description := description } target

namespace Target

open Text (Lacks lacks_cons_iff)

/-! ## Reading a comment -/

/-- A text up to the first closing mark of a comment, and what stands behind the mark. -/
def splitClosing : List Char → Option (List Char × List Char)
  | '*' :: '/' :: rest => some ([], rest)
  | c :: rest => (splitClosing rest).map fun r => (c :: r.1, r.2)
  | [] => none

/-- The inside of a documentation comment that a text begins with, and what stands behind it. -/
def docComment? : List Char → Option (List Char × List Char)
  | '/' :: '*' :: '*' :: rest => splitClosing rest
  | _ => none

theorem splitClosing_append {body : List Char} (h : Lacks '*' '/' body) (rest : List Char) :
    splitClosing (body ++ '*' :: '/' :: rest) = some (body, rest) := by
  induction body with
  | nil => rfl
  | cons c body ih =>
    rw [lacks_cons_iff] at h
    rw [List.cons_append, splitClosing, ih h.2]
    · rfl
    · rintro rest' rfl hrest
      cases body with
      | nil => cases hrest
      | cons d body => exact h.1 rfl (by rw [(List.cons.inj hrest).1]; rfl)

/-! ## The inside of comments -/

/-- The inside of the comment in front of a declaration. -/
def docBody (s : String) : List Char :=
  '\n' :: ((Text.commentLines (some (Text.escapeBlockComment s))).flatMap fun line =>
    " * ".toList ++ line.toList ++ ['\n']) ++ [' ']

/-- The inside of the comment in front of a field. -/
def shortDocBody (s : String) : List Char :=
  ' ' :: (Text.onOneLine (Text.escapeBlockComment s)).toList ++ [' ']

theorem unclosing_docBody (s : String) : Lacks '*' '/' (docBody s) := by
  have hlines : ∀ lines : List String, (∀ line ∈ lines, Lacks '*' '/' line.toList) →
      Lacks '*' '/' ((lines.flatMap fun line => " * ".toList ++ line.toList ++ ['\n']) ++ [' ']) := by
    intro lines h
    induction lines with
    | nil => exact Text.lacks_singleton ' '
    | cons line lines ih =>
      rw [List.forall_mem_cons] at h
      have hline : Lacks '*' '/' (" * ".toList ++ line.toList ++ ['\n']) := by
        refine Lacks.append ?_ (Text.lacks_singleton _) (by simp)
        simpa [lacks_cons_iff] using h.1
      rw [List.flatMap_cons, List.append_assoc]
      refine hline.append (ih h.2) ?_
      cases lines <;> simp
  rw [docBody, List.cons_append, lacks_cons_iff]
  exact ⟨by simp, hlines _ fun line hline =>
    Text.lacks_of_mem_commentLines (Text.unclosing_breakClosing s.toList) hline⟩

theorem unclosing_shortDocBody (s : String) : Lacks '*' '/' (shortDocBody s) := by
  rw [shortDocBody, List.cons_append, lacks_cons_iff]
  have hbroken := Text.unclosing_breakClosing s.toList
  exact ⟨by simp, .append (Text.lacks_onOneLine (by decide) (by decide) hbroken)
    (Text.lacks_singleton _) (by simp)⟩

/-- The description lies inside the comment, but for blanks at its end. -/
theorem sublist_docBody (s : String) : (Text.trimRight s.toList).Sublist (docBody s) := by
  by_cases hs : s = ""
  · subst hs
    exact List.nil_sublist _
  have hescaped := Text.sublist_breakClosing s.toList
  have hne : Text.escapeBlockComment s ≠ "" := by
    intro h
    rw [Text.escapeBlockComment, String.ofList_eq_empty_iff] at h
    rw [h, List.sublist_nil, String.toList_eq_nil_iff] at hescaped
    exact hs hescaped
  have hlines := Text.intercalate_sublist_flatMap " * ".toList
    ((Text.trimRight (Text.breakClosing s.toList)).splitOn '\n')
  rw [List.intercalate_splitOn] at hlines
  have hbody : docBody s = '\n' :: (((Text.trimRight (Text.breakClosing s.toList)).splitOn
      '\n').flatMap fun line => " * ".toList ++ line ++ ['\n']) ++ [' '] := by
    rw [docBody, Text.commentLines, if_neg hne, List.flatMap_map, Text.escapeBlockComment]
    simp only [String.toList_ofList]
  rw [hbody]
  exact (((Text.sublist_trimRight hescaped).trans hlines).cons '\n').trans
    (List.sublist_append_left _ _)

/-- The description lies inside the comment, with spaces in place of line breaks. -/
theorem sublist_shortDocBody (s : String) :
    (s.toList.map fun c => if c = '\n' then ' ' else c).Sublist (shortDocBody s) := by
  have hescaped := (Text.sublist_breakClosing s.toList).map fun c => if c = '\n' then ' ' else c
  rw [shortDocBody, Text.onOneLine, Text.escapeBlockComment, String.toList_ofList,
    String.toList_ofList]
  exact (hescaped.cons ' ').trans (List.sublist_append_left _ _)

theorem notMem_newline_shortDocBody (s : String) : '\n' ∉ shortDocBody s := by
  have hline : '\n' ∉ (Text.onOneLine (Text.escapeBlockComment s)).toList := by
    rw [Text.onOneLine, String.toList_ofList]
    intro h
    obtain ⟨c, -, hc⟩ := List.mem_map.1 h
    split at hc
    · cases hc
    · next hne => exact hne hc
  simp [shortDocBody, hline]

/-! ## Lines with comments -/

/-- The lines as one text. -/
abbrev joined (lines : List String) : String := "\n".intercalate lines

/-- A text begins with something other than a line break. -/
def Opens (s : String) : Prop := s.toList.head?.any (· ≠ '\n') = true

/-- A text ends with something other than a line break. -/
def Closes (s : String) : Prop := s.toList.getLast?.any (· ≠ '\n') = true

instance (s : String) : Decidable (Opens s) := inferInstanceAs (Decidable (_ = true))

instance (s : String) : Decidable (Closes s) := inferInstanceAs (Decidable (_ = true))

variable {s : String} {as lines bs : List String}

theorem Opens.append (h : Opens s) (t : String) : Opens (s ++ t) := by
  unfold Opens at h ⊢
  rw [String.toList_append, List.head?_append]
  cases hs : s.toList.head? with
  | none =>
    rw [hs] at h
    cases h
  | some c => rwa [hs] at h

/-- A text is looked at by its characters. -/
theorem opens_ofList {c : Char} {cs : List Char} (hs : s = String.ofList (c :: cs)) (hc : c ≠ '\n') :
    Opens s := by
  rw [Opens, hs, String.toList_ofList]
  simpa using hc

theorem Closes.append {t : String} (h : Closes t) (s : String) : Closes (s ++ t) := by
  unfold Closes at h ⊢
  rw [String.toList_append, List.getLast?_append]
  cases ht : t.toList.getLast? with
  | none =>
    rw [ht] at h
    cases h
  | some c => rwa [ht] at h

/-- Lines that begin and end with something other than a line break. -/
structure Framed (lines : List String) : Prop where
  first : ∃ line ∈ lines.head?, Opens line
  last : ∃ line ∈ lines.getLast?, Closes line

theorem Opens.dropWhile_eq (h : Opens s) : s.toList.dropWhile (· = '\n') = s.toList := by
  unfold Opens at h
  cases hs : s.toList with
  | nil => rfl
  | cons c cs =>
    rw [hs] at h
    have hc : c ≠ '\n' := by simpa using h
    simp [hc]

/-- Lines begin as the first of them does. -/
theorem opens_joined (h : ∃ line ∈ lines.head?, Opens line) : Opens (joined lines) := by
  obtain ⟨line, hline, hopens⟩ := h
  obtain ⟨rest, rfl⟩ := List.head?_eq_some_iff.1 hline
  cases rest with
  | nil => rwa [joined, String.intercalate_singleton]
  | cons line' rest =>
    rw [joined, String.intercalate_cons_cons, String.append_assoc]
    exact hopens.append _

/-- Lines end as the last of them does. -/
theorem closes_joined (h : ∃ line ∈ lines.getLast?, Closes line) : Closes (joined lines) := by
  obtain ⟨line, hline, hcloses⟩ := h
  obtain ⟨rest, rfl⟩ := List.getLast?_eq_some_iff.1 hline
  cases rest with
  | nil => rwa [joined, List.nil_append, String.intercalate_singleton]
  | cons line' rest =>
    rw [joined, String.intercalate_append_of_ne_nil (by simp) (by simp), String.intercalate_singleton]
    exact hcloses.append _

/-- Line breaks at the end of what stands behind a text do not reach into it. -/
theorem Closes.dropRightWhile_append (h : Closes s) (cs : List Char) :
    Text.dropRightWhile (· = '\n') (s.toList ++ cs) =
      s.toList ++ Text.dropRightWhile (· = '\n') cs := by
  unfold Closes at h
  cases hlast : s.toList.getLast? with
  | none =>
    rw [hlast] at h
    cases h
  | some c =>
    rw [hlast] at h
    have hc : c ≠ '\n' := by simpa using h
    obtain ⟨front, hs⟩ := List.getLast?_eq_some_iff.1 hlast
    rw [hs, Text.dropRightWhile, Text.dropRightWhile, List.reverse_append, List.dropWhile_append]
    split
    · next hnil =>
      rw [List.isEmpty_iff.1 hnil]
      simp [hc]
    · simp

theorem toList_joined_append_flatMap (has : as ≠ []) (bs : List String) :
    (joined (as ++ bs)).toList = (joined as).toList ++ bs.flatMap fun line => '\n' :: line.toList := by
  induction bs generalizing as with
  | nil => simp
  | cons line bs ih =>
    have hline : (joined (as ++ [line])).toList = (joined as).toList ++ '\n' :: line.toList := by
      rw [joined, String.intercalate_append_of_ne_nil has (by simp), String.intercalate_singleton]
      simp
    rw [← List.singleton_append, ← List.append_assoc, ih (by simp), hline]
    simp

theorem Framed.ne_nil (h : Framed lines) : lines ≠ [] := by
  rintro rfl
  obtain ⟨line, hline, -⟩ := h.first
  cases hline

/-- Only line breaks at the end of what stands behind framed lines are dropped. -/
theorem toList_layout_append (has : Framed as) (bs : List String) :
    (layout (as ++ bs)).toList = (joined as).toList ++
      Text.dropRightWhile (· = '\n') (bs.flatMap fun line => '\n' :: line.toList) := by
  have hopens : Opens (joined (as ++ bs)) := by
    refine opens_joined ?_
    rw [List.head?_append_of_ne_nil _ has.ne_nil]
    exact has.first
  rw [layout, trimNewlines, String.toList_ofList, hopens.dropWhile_eq,
    toList_joined_append_flatMap has.ne_nil, (closes_joined has.last).dropRightWhile_append]

theorem layout_of_framed (h : Framed lines) : layout lines = joined lines := by
  refine String.toList_inj.1 ?_
  have hlayout := toList_layout_append h []
  rwa [List.append_nil, List.flatMap_nil, Text.dropRightWhile, List.reverse_nil, List.dropWhile_nil,
    List.reverse_nil, List.append_nil] at hlayout

theorem toList_joined_append (has : as ≠ []) (hbs : bs ≠ []) :
    (joined (as ++ bs)).toList = (joined as).toList ++ '\n' :: (joined bs).toList := by
  rw [joined, String.intercalate_append_of_ne_nil has hbs, String.toList_append,
    String.toList_append, List.append_assoc]
  rfl

theorem blockComment_of_ne (hs : s ≠ "") : blockComment (some s) =
    "/**" :: (Text.commentLines (some (Text.escapeBlockComment s))).map (" * " ++ ·) ++ [" */"] := by
  simp [blockComment, nonEmpty, hs]

theorem toList_blockComment (hs : s ≠ "") :
    (joined (blockComment (some s))).toList = '/' :: '*' :: '*' :: (docBody s ++ ['*', '/']) := by
  refine List.append_cancel_right (show _ ++ ['\n'] = _ ++ ['\n'] from ?_)
  rw [blockComment_of_ne hs, List.cons_append, Lexis.toList_intercalate_newline, List.flatMap_cons,
    List.flatMap_append, List.flatMap_map, docBody]
  simp

/-- Lines in front of others. -/
theorem Framed.append (has : Framed as) (hbs : Framed bs) : Framed (as ++ bs) := by
  refine ⟨?_, ?_⟩
  · rw [List.head?_append_of_ne_nil _ has.ne_nil]
    exact has.first
  · rw [List.getLast?_append_of_ne_nil _ hbs.ne_nil]
    exact hbs.last

theorem Framed.prepend (has : ∀ line ∈ as, Opens line) (hbs : Framed bs) : Framed (as ++ bs) := by
  cases as with
  | nil => exact hbs
  | cons line as =>
    refine ⟨⟨line, rfl, has line List.mem_cons_self⟩, ?_⟩
    rw [List.getLast?_append_of_ne_nil _ hbs.ne_nil]
    exact hbs.last

theorem framed_blockComment (hs : s ≠ "") : Framed (blockComment (some s)) := by
  rw [blockComment_of_ne hs]
  exact ⟨⟨"/**", rfl, by decide⟩, ⟨" */", List.getLast?_eq_some_iff.2 ⟨_, rfl⟩, by decide⟩⟩

theorem Framed.comment {code : List String} (h : Framed code) (description : Option String) :
    Framed (blockComment description ++ code) := by
  cases description with
  | none => exact h
  | some s =>
    by_cases hs : s = ""
    · subst hs
      exact h
    · exact (framed_blockComment hs).append h

/-- A comment in front of a declaration is read up to the declaration. -/
theorem docComment?_layout (hs : s ≠ "") {code : List String} (hcode : Framed code) :
    docComment? (layout (blockComment (some s) ++ code)).toList =
      some (docBody s, '\n' :: (layout code).toList) := by
  have hcomment := framed_blockComment hs
  rw [layout_of_framed (hcomment.append hcode), layout_of_framed hcode,
    toList_joined_append hcomment.ne_nil hcode.ne_nil, toList_blockComment hs, List.cons_append,
    List.cons_append, List.cons_append, docComment?, List.append_assoc]
  exact splitClosing_append (unclosing_docBody s) _

/-- A comment between lines is read up to the line behind it. -/
theorem exists_docComment_layout (hs : s ≠ "") (indent : String) (has : as ≠ []) (hbs : bs ≠ [])
    (hlines : Framed (as ++ bs)) :
    ∃ front rest code : List Char,
      (layout (as ++ shortBlockComment indent (some s) ++ bs)).toList =
        front ++ indent.toList ++ rest ∧
      docComment? rest = some (shortDocBody s, '\n' :: code) ∧
      (layout (as ++ bs)).toList = front ++ code := by
  have hcomment : shortBlockComment indent (some s) =
      [indent ++ "/** " ++ Text.onOneLine (Text.escapeBlockComment s) ++ " */"] := by
    simp [shortBlockComment, nonEmpty, hs]
  have hall : Framed (as ++ shortBlockComment indent (some s) ++ bs) := by
    obtain ⟨first, last⟩ := hlines
    rw [List.head?_append_of_ne_nil _ has] at first
    rw [List.getLast?_append_of_ne_nil _ hbs] at last
    refine ⟨?_, ?_⟩
    · rwa [List.append_assoc, List.head?_append_of_ne_nil _ has]
    · rwa [List.getLast?_append_of_ne_nil _ hbs]
  refine ⟨(joined as).toList ++ ['\n'],
    '/' :: '*' :: '*' :: (shortDocBody s ++ '*' :: '/' :: '\n' :: (joined bs).toList),
    (joined bs).toList, ?_, ?_, ?_⟩
  · rw [layout_of_framed hall, toList_joined_append (by simp [has]) hbs, hcomment,
      toList_joined_append has (by simp), joined, joined, String.intercalate_singleton]
    simp [shortDocBody]
  · exact splitClosing_append (unclosing_shortDocBody s) _
  · rw [layout_of_framed hlines, toList_joined_append has hbs]
    simp

theorem framed_cons {first last : String} (hfirst : Opens first) (hlast : Closes last)
    (lines : List String) : Framed (first :: lines ++ [last]) :=
  ⟨⟨first, rfl, hfirst⟩, ⟨last, List.getLast?_eq_some_iff.2 ⟨_, rfl⟩, hlast⟩⟩

theorem framed_singleton {line : String} (hfirst : Opens line) (hlast : Closes line) :
    Framed [line] :=
  ⟨⟨line, rfl, hfirst⟩, ⟨line, rfl, hlast⟩⟩

/-! ## Declarations with comments -/

/-- The lines of declarations hold descriptions in comments only: that of a declaration in front of it,
and those of the fields that are written in front of these. -/
structure Documents (linesOf : Declaration → Except Failure (List String)) (indent : String)
    (Written : Field → Prop) : Prop where
  declaration : ∀ {d lines}, linesOf d = .ok lines → ∃ code, linesOf (d.describe none) = .ok code ∧
    Framed code ∧ lines = blockComment d.description ++ code
  field : ∀ {h before f after base additional lines}, Written f →
    linesOf (.struct h (before ++ f :: after) base additional) = .ok lines →
    ∃ as bs, as ≠ [] ∧ bs ≠ [] ∧ lines = as ++ shortBlockComment indent f.description ++ bs ∧
      linesOf (.struct h (before ++ { f with description := none } :: after) base additional) =
        .ok (as ++ bs)

section Documents

variable {linesOf : Declaration → Except Failure (List String)} {indent : String}
  {Written : Field → Prop}

theorem Documents.exists_docComment (hdocs : Documents linesOf indent Written) {d : Declaration}
    {s : String} (hs : d.description = some s) {lines : List String} (h : linesOf d = .ok lines) :
    ∃ code, linesOf (d.describe none) = .ok code ∧
      (s = "" ∧ layout lines = layout code ∨
        docComment? (layout lines).toList = some (docBody s, '\n' :: (layout code).toList)) := by
  obtain ⟨code, hcode, hframed, rfl⟩ := hdocs.declaration h
  refine ⟨code, hcode, ?_⟩
  rw [hs]
  by_cases hempty : s = ""
  · subst hempty
    exact .inl ⟨rfl, rfl⟩
  · exact .inr (docComment?_layout hempty hframed)

theorem Documents.exists_docComment_field (hdocs : Documents linesOf indent Written) {h : Header}
    {before after : List Field} {f : Field} {base : Option String} {additional : Bool} {s : String}
    (hs : f.description = some s) (hf : Written f) {lines : List String}
    (hlines : linesOf (.struct h (before ++ f :: after) base additional) = .ok lines) :
    ∃ plain,
      linesOf (.struct h (before ++ { f with description := none } :: after) base additional) =
        .ok plain ∧
      (s = "" ∧ layout lines = layout plain ∨
        ∃ front rest code, (layout lines).toList = front ++ indent.toList ++ rest ∧
          docComment? rest = some (shortDocBody s, '\n' :: code) ∧
          (layout plain).toList = front ++ code) := by
  obtain ⟨as, bs, has, hbs, rfl, hplain⟩ := hdocs.field hf hlines
  refine ⟨as ++ bs, hplain, ?_⟩
  rw [hs]
  by_cases hempty : s = ""
  · subst hempty
    refine .inl ⟨rfl, ?_⟩
    simp [shortBlockComment, nonEmpty]
  · obtain ⟨code, -, hframed, heq⟩ := hdocs.declaration hplain
    have hall : Framed (as ++ bs) := heq ▸ hframed.comment _
    exact .inr (exists_docComment_layout hempty indent has hbs hall)

end Documents

namespace TypeScript

theorem exists_undescribed {d : Declaration} {lines : List String}
    (h : declarationLines d = .ok lines) : ∃ code, declarationLines (d.describe none) = .ok code ∧
      Framed code ∧ lines = blockComment d.description ++ code := by
  have hline : ∀ name text, Framed ["export type " ++ name ++ " = " ++ text ++ ";"] := by
    intro name text
    have hopens : Opens "export type " := by decide
    have hcloses : Closes ";" := by decide
    exact framed_singleton ((((hopens.append _).append _).append _).append _) (hcloses.append _)
  cases d with
  | struct header fields base additional =>
    obtain ⟨members, hmembers, hlines⟩ := bind_eq_ok.1 h
    obtain rfl := pure_eq_ok.1 hlines
    have hopens : Opens "export interface " := by decide
    exact ⟨["export interface " ++ header.name ++ " \x7b"] ++ members.flatten ++ ["\x7d"],
      bind_eq_ok.2 ⟨members, hmembers, rfl⟩, framed_cons ((hopens.append _).append _) (by decide) _,
      by simp⟩
  | enum header members =>
    cases h
    exact ⟨_, rfl, hline _ _, rfl⟩
  | union header tagName tagWire variants =>
    cases h
    exact ⟨_, rfl, hline _ _, rfl⟩
  | synonym header target =>
    obtain ⟨type, htype, hlines⟩ := bind_eq_ok.1 h
    obtain rfl := pure_eq_ok.1 hlines
    exact ⟨_, bind_eq_ok.2 ⟨type, htype, rfl⟩, hline _ _, rfl⟩

theorem exists_undescribed_member {f : Field} {block : List String}
    (h : memberLines f = .ok block) : ∃ line, block = shortBlockComment "  " f.description ++ [line] ∧
      memberLines { f with description := none } = .ok [line] := by
  obtain ⟨type, htype, hblock⟩ := bind_eq_ok.1 h
  obtain rfl := pure_eq_ok.1 hblock
  exact ⟨_, rfl, bind_eq_ok.2 ⟨type, htype, rfl⟩⟩

theorem exists_undescribed_field {h : Header} {before after : List Field} {f : Field}
    {base : Option String} {additional : Bool} {lines : List String}
    (hlines : declarationLines (.struct h (before ++ f :: after) base additional) = .ok lines) :
    ∃ as bs, as ≠ [] ∧ bs ≠ [] ∧ lines = as ++ shortBlockComment "  " f.description ++ bs ∧
      declarationLines (.struct h (before ++ { f with description := none } :: after) base additional) =
        .ok (as ++ bs) := by
  obtain ⟨members, hmembers, hpure⟩ := bind_eq_ok.1 hlines
  obtain rfl := pure_eq_ok.1 hpure
  simp only [List.mapM_append, List.mapM_cons, bind_eq_ok, pure_eq_ok] at hmembers
  obtain ⟨ms, hms, _, ⟨block, hblock, ms', hms', rfl⟩, rfl⟩ := hmembers
  obtain ⟨line, rfl, hline⟩ := exists_undescribed_member hblock
  refine ⟨blockComment h.description ++ ["export interface " ++ h.name ++ " \x7b"] ++ ms.flatten,
    line :: ms'.flatten ++ ["\x7d"], by simp, by simp, ?_, ?_⟩
  · simp [Declaration.description, Declaration.header]
  · refine bind_eq_ok.2 ⟨ms ++ [line] :: ms', ?_, ?_⟩
    · simp only [List.mapM_append, List.mapM_cons, bind_eq_ok, pure_eq_ok]
      exact ⟨ms, hms, _, ⟨_, hline, ms', hms', rfl⟩, rfl⟩
    · simp [pure_eq_ok, Declaration.description, Declaration.header]

theorem documents_declarationLines : Documents declarationLines "  " fun _ => True :=
  ⟨exists_undescribed, fun _ h => exists_undescribed_field h⟩

end TypeScript

namespace Java

variable {lines : List String} {base : Option String}

theorem opens_of_typeNameLines {fields : List Field} (h : typeNameLines fields base = .ok lines) :
    ∀ line ∈ lines, Opens line := by
  have hopens : Opens "@JsonTypeName(" := opens_ofList rfl (by decide)
  unfold typeNameLines at h
  split at h
  · cases h
    simp
  · split at h
    · cases h
      exact List.forall_mem_singleton.2 ((hopens.append _).append _)
    · cases h

theorem framed_classLines {name : String} {fields : List Field} {additional : Bool}
    (h : classLines name fields base additional = .ok lines) : Framed lines := by
  have hignore : Opens "@JsonIgnoreProperties(ignoreUnknown = true)" := opens_ofList rfl (by decide)
  have hclass : Opens "public class " := opens_ofList rfl (by decide)
  obtain ⟨members, -, h⟩ := bind_eq_ok.1 h
  obtain ⟨typeName, htypeName, h⟩ := bind_eq_ok.1 h
  obtain rfl := pure_eq_ok.1 h
  rw [List.append_assoc, List.append_assoc, List.append_assoc]
  refine .prepend ?_ (.prepend (opens_of_typeNameLines htypeName) ?_)
  · cases additional with
    | true => exact List.forall_mem_singleton.2 hignore
    | false => simp
  · exact framed_cons (((hclass.append _).append _).append _) (by decide) _

theorem exists_undescribed {d : Declaration} (h : declarationLines d = .ok lines) :
    ∃ code, declarationLines (d.describe none) = .ok code ∧
      Framed code ∧ lines = blockComment d.description ++ code := by
  cases d with
  | struct header fields base additional =>
    obtain ⟨code, hcode, hlines⟩ := bind_eq_ok.1 h
    obtain rfl := pure_eq_ok.1 hlines
    exact ⟨code, bind_eq_ok.2 ⟨code, hcode, rfl⟩, framed_classLines hcode, rfl⟩
  | enum header members =>
    cases h
    have hopens : Opens "public enum " := opens_ofList rfl (by decide)
    exact ⟨["public enum " ++ header.name ++ " \x7b"] ++ memberLines members ++ ["\x7d"], rfl,
      framed_cons ((hopens.append _).append _) (by decide) _, by simp⟩
  | union header tagName tagWire variants =>
    cases h
    have hopens : Opens
        "@JsonTypeInfo(use = JsonTypeInfo.Id.NAME, include = JsonTypeInfo.As.PROPERTY, property = " :=
      opens_ofList rfl (by decide)
    refine ⟨unionLines header.name tagWire variants, rfl,
      ⟨⟨_, rfl, (hopens.append _).append _⟩, ⟨"\x7d", ?_, by decide⟩⟩, rfl⟩
    rw [unionLines, List.getLast?_append_of_ne_nil _ (by simp)]
    rfl
  | synonym header target =>
    obtain ⟨type, htype, hlines⟩ := bind_eq_ok.1 h
    obtain rfl := pure_eq_ok.1 hlines
    have hopens : Opens "public class " := opens_ofList rfl (by decide)
    exact ⟨aliasLines header.name type, bind_eq_ok.2 ⟨type, htype, rfl⟩,
      ⟨⟨_, rfl, (hopens.append _).append _⟩, ⟨"\x7d", rfl, by decide⟩⟩, rfl⟩

theorem exists_undescribed_lines {f : Field} {block : List String} (h : fieldLines f = .ok block) :
    ∃ lines, lines ≠ [] ∧ block = shortBlockComment "    " f.description ++ lines ∧
      fieldLines { f with description := none } = .ok lines := by
  obtain ⟨type, htype, hblock⟩ := bind_eq_ok.1 h
  obtain rfl := pure_eq_ok.1 hblock
  exact ⟨_, by simp, List.append_assoc _ _ _, bind_eq_ok.2 ⟨type, htype, rfl⟩⟩

/-- Of blocks of lines with a separator between them, one may be replaced. -/
theorem exists_intersperse (sep : List String) (before after : List (List String)) :
    ∃ as bs, ∀ block, ((before ++ block :: after).intersperse sep).flatten = as ++ block ++ bs := by
  induction before with
  | nil =>
    cases after with
    | nil => exact ⟨[], [], by simp⟩
    | cons next after =>
      exact ⟨[], sep ++ ((next :: after).intersperse sep).flatten, by simp⟩
  | cons first before ih =>
    obtain ⟨as, bs, h⟩ := ih
    refine ⟨first ++ sep ++ as, bs, fun block => ?_⟩
    cases before with
    | nil => simpa using h block
    | cons => simpa using h block

/-- The lines of a class up to its fields depend on the fields by the annotation only. -/
theorem exists_classFront (name : String) (base : Option String) (additional : Bool)
    (typeName : List String) : ∃ front ≠ [], ∀ fields members,
      (dataFields fields).mapM fieldLines = .ok members → typeNameLines fields base = .ok typeName →
      classLines name fields base additional =
        .ok (front ++ (members.intersperse [""]).flatten ++ ["\x7d"]) := by
  refine ⟨_, ?_, fun fields members hmembers htypeName =>
    bind_eq_ok.2 ⟨members, hmembers, bind_eq_ok.2 ⟨typeName, htypeName, rfl⟩⟩⟩
  simp

theorem exists_undescribed_field {h : Header} {before after : List Field} {f : Field}
    {additional : Bool} (hf : f.isTag = false)
    (hlines : declarationLines (.struct h (before ++ f :: after) base additional) = .ok lines) :
    ∃ as bs, as ≠ [] ∧ bs ≠ [] ∧ lines = as ++ shortBlockComment "    " f.description ++ bs ∧
      declarationLines (.struct h (before ++ { f with description := none } :: after) base additional) =
        .ok (as ++ bs) := by
  have hdata : ∀ g : Field, g.isTag = false →
      dataFields (before ++ g :: after) = dataFields before ++ g :: dataFields after := by
    intro g hg
    simp [dataFields, hg]
  have htag : typeNameLines (before ++ { f with description := none } :: after) base =
      typeNameLines (before ++ f :: after) base := by
    unfold typeNameLines
    simp [List.find?_append, hf]
  obtain ⟨code, hcode, hpure⟩ := bind_eq_ok.1 hlines
  obtain rfl := pure_eq_ok.1 hpure
  obtain ⟨members, hmembers, hmore⟩ := bind_eq_ok.1 hcode
  obtain ⟨typeName, htypeName, -⟩ := bind_eq_ok.1 hmore
  obtain ⟨front, hfront, hclass⟩ := exists_classFront h.name base additional typeName
  obtain rfl := Except.ok.inj (hcode.symm.trans (hclass _ _ hmembers htypeName))
  simp only [hdata f hf, List.mapM_append, List.mapM_cons, bind_eq_ok, pure_eq_ok] at hmembers
  obtain ⟨ms, hms, _, ⟨block, hblock, ms', hms', rfl⟩, rfl⟩ := hmembers
  obtain ⟨rest, hrest, rfl, hfield⟩ := exists_undescribed_lines hblock
  obtain ⟨as, bs, hall⟩ := exists_intersperse [""] ms ms'
  refine ⟨blockComment h.description ++ front ++ as, rest ++ bs ++ ["\x7d"], by simp [hfront],
    by simp, ?_, ?_⟩
  · simp [hall, Declaration.description, Declaration.header]
  · have hmembers : (dataFields (before ++ { f with description := none } :: after)).mapM
        fieldLines = .ok (ms ++ rest :: ms') := by
      simp only [hdata { f with description := none } hf, List.mapM_append, List.mapM_cons,
        bind_eq_ok, pure_eq_ok]
      exact ⟨ms, hms, _, ⟨rest, hfield, ms', hms', rfl⟩, rfl⟩
    refine bind_eq_ok.2 ⟨_, hclass _ _ hmembers (htag.trans htypeName), ?_⟩
    simp [hall, pure_eq_ok, Declaration.description, Declaration.header]

theorem documents_declarationLines :
    Documents declarationLines "    " fun f => f.isTag = false :=
  ⟨exists_undescribed, exists_undescribed_field⟩

end Java

/-- Descriptions cannot leave their comments.  Whatever the description of a declaration is, the text
begins with a comment that holds all of it but for blanks at its end, and behind the first closing mark
stands the text of the declaration without a description.  The comment of a field is a line of its own
that holds the description with spaces in place of line breaks, and without the line up to the first
closing mark the text is that of the struct in which the field has no description.  Empty descriptions
have no comment; of the fields in Java, those for tags are not written. -/
theorem descriptions_enclosed (t : Target) (ht : t = typescript ∨ t = java) (setting : Setting) :
    (∀ d s text, d.description = some s → t.renderDeclaration setting d = .ok text →
      ∃ code, t.renderDeclaration setting (d.describe none) = .ok code ∧
        (s = "" ∧ text = code ∨
          ∃ body, docComment? text.toList = some (body, '\n' :: code.toList) ∧
            (Text.trimRight s.toList).Sublist body)) ∧
    ∀ h before f after base additional s text, f.description = some s →
      (t = java → f.isTag = false) →
      t.renderDeclaration setting (.struct h (before ++ f :: after) base additional) = .ok text →
      ∃ plain,
        t.renderDeclaration setting
          (.struct h (before ++ { f with description := none } :: after) base additional) =
            .ok plain ∧
        (s = "" ∧ text = plain ∨
          ∃ front margin rest body code, text.toList = front ++ margin ++ rest ∧
            (∀ c ∈ margin, c = ' ') ∧ docComment? rest = some (body, '\n' :: code) ∧
            plain.toList = front ++ code ∧ '\n' ∉ body ∧
            (s.toList.map fun c => if c = '\n' then ' ' else c).Sublist body) := by
  obtain ⟨linesOf, indent, Written, hdocs, hrender, hindent, hwritten⟩ :
      ∃ linesOf indent Written, Documents linesOf indent Written ∧
        (∀ d text, t.renderDeclaration setting d = .ok text ↔
          ∃ lines, linesOf d = .ok lines ∧ layout lines = text) ∧
        (∀ c ∈ indent.toList, c = ' ') ∧ ∀ f : Field, (t = java → f.isTag = false) → Written f := by
    rcases ht with rfl | rfl
    · refine ⟨_, _, _, TypeScript.documents_declarationLines, fun d text => ?_, by simp,
        fun _ _ => trivial⟩
      simp only [renderDeclaration, bind_eq_ok, pure_eq_ok]
    · refine ⟨_, _, _, Java.documents_declarationLines, fun d text => ?_, by simp,
        fun f hf => hf rfl⟩
      simp only [renderDeclaration, bind_eq_ok, pure_eq_ok]
  refine ⟨fun d s text hs htext => ?_, fun h before f after base additional s text hs hf htext => ?_⟩
  · obtain ⟨lines, hlines, rfl⟩ := (hrender d text).1 htext
    obtain ⟨code, hcode, hread⟩ := hdocs.exists_docComment hs hlines
    refine ⟨layout code, (hrender _ _).2 ⟨code, hcode, rfl⟩, hread.imp_right fun hread => ?_⟩
    exact ⟨docBody s, hread, sublist_docBody s⟩
  · obtain ⟨lines, hlines, rfl⟩ := (hrender _ text).1 htext
    obtain ⟨plain, hplain, hread⟩ := hdocs.exists_docComment_field hs (hwritten f hf) hlines
    refine ⟨layout plain, (hrender _ _).2 ⟨plain, hplain, rfl⟩, hread.imp_right ?_⟩
    rintro ⟨front, rest, code, htoList, hdoc, heq⟩
    exact ⟨front, indent.toList, rest, shortDocBody s, code, htoList, hindent, hdoc, heq,
      notMem_newline_shortDocBody s, sublist_shortDocBody s⟩

/-- A struct and a field whose descriptions hold closing marks. -/
def globStruct : Declaration :=
  .struct { name := "Filter", description := some "src/**/*.ts" }
    [{ name := "path", wire := "path", type := .any "any", description := some "*/\n/" }] none false

theorem descriptions_enclosed_glob :
    (∃ text code body,
      typescript.renderDeclaration { rootName := .null } globStruct = .ok text ∧
      typescript.renderDeclaration { rootName := .null } (globStruct.describe none) = .ok code ∧
      docComment? text.toList = some (body, '\n' :: code.toList) ∧
      (Text.trimRight "src/**/*.ts".toList).Sublist body) ∧
    ∃ text front margin rest body code,
      java.renderDeclaration { rootName := .null } globStruct = .ok text ∧
      text.toList = front ++ margin ++ rest ∧ docComment? rest = some (body, '\n' :: code) ∧
      '\n' ∉ body ∧ ['*', '/', ' ', '/'].Sublist body := by
  constructor
  · obtain ⟨code, hcode, ⟨hs, -⟩ | ⟨body, hbody, hsublist⟩⟩ :=
      (descriptions_enclosed typescript (.inl rfl) { rootName := .null }).1 globStruct _ _ rfl rfl
    · exact absurd hs (by decide)
    · exact ⟨_, code, body, rfl, hcode, hbody, hsublist⟩
  · obtain ⟨plain, -, ⟨hs, -⟩ |
        ⟨front, margin, rest, body, code, htext, -, hbody, -, hline, hsublist⟩⟩ :=
      (descriptions_enclosed java (.inr rfl) { rootName := .null }).2
        { name := "Filter", description := some "src/**/*.ts" } []
        { name := "path", wire := "path", type := .any "any", description := some "*/\n/" } [] none
        false _ _ rfl (fun _ => rfl) rfl
    · exact absurd hs (by decide)
    · exact ⟨_, front, margin, rest, body, code, rfl, htext, hbody, hline, hsublist⟩

end Target

end Typegen
