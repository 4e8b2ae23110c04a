import Typegen.Proofs.Lexis

/-!
# Descriptions in block comments

Where a star stands in front of a slash in a description, a backslash is put between the two.  So the
block comment that it is written into ends where it should, and brings no lexemes
(`lines_blockComment` and `lines_shortBlockComment`).  Where escapes are read before anything else, the
description must not begin one.
-/

namespace Typegen.Text

/-- A text in which no character `a` stands in front of a `b`. -/
def Lacks (a b : Char) (cs : List Char) : Prop := ¬ [a, b] <:+: cs

instance (a b : Char) (cs : List Char) : Decidable (Lacks a b cs) :=
  inferInstanceAs (Decidable (¬ [a, b] <:+: cs))

section

variable {a b : Char} {cs ds : List Char} {s : String}

theorem Lacks.mono (h : Lacks a b ds) (hpart : cs <:+: ds) : Lacks a b cs :=
  fun hpair => h (hpair.trans hpart)

theorem lacks_cons_iff {c : Char} :
    Lacks a b (c :: cs) ↔ (c = a → cs.head? ≠ some b) ∧ Lacks a b cs := by
  have hhead : [a, b] <+: c :: cs ↔ c = a ∧ cs.head? = some b := by
    rw [List.cons_prefix_cons]
    cases cs with
    | nil => simp
    | cons d cs => simp [List.cons_prefix_cons, eq_comm]
  rw [Lacks, List.infix_cons_iff, hhead, not_or, not_and]
  rfl

theorem head?_breakClosing (cs : List Char) : (breakClosing cs).head? = cs.head? := by
  fun_cases breakClosing cs <;> rfl

theorem unclosing_breakClosing (cs : List Char) : Lacks '*' '/' (breakClosing cs) := by
  fun_induction breakClosing cs with
  | case1 cs ih => simpa [lacks_cons_iff] using ih
  | case2 c cs hother ih =>
    refine lacks_cons_iff.2 ⟨fun hc hhead => ?_, ih⟩
    rw [head?_breakClosing] at hhead
    obtain ⟨rest, hrest⟩ := List.head?_eq_some_iff.1 hhead
    exact hother rest hc hrest
  | case3 => simp [Lacks]

theorem unescaping_breakClosing (h : Lacks '\\' 'u' cs) : Lacks '\\' 'u' (breakClosing cs) := by
  fun_induction breakClosing cs with
  | case1 cs ih =>
    simp only [lacks_cons_iff] at h
    simpa [lacks_cons_iff] using ih h.2.2
  | case2 c cs hother ih =>
    rw [lacks_cons_iff] at h
    rw [lacks_cons_iff, head?_breakClosing]
    exact ⟨h.1, ih h.2⟩
  | case3 => exact h

theorem infix_intercalate {α : Type} (sep : List α) {w : List α} {ws : List (List α)} (h : w ∈ ws) :
    w <:+: sep.intercalate ws := by
  induction ws with
  | nil => cases h
  | cons v ws ih =>
    cases ws with
    | nil =>
      simp [List.mem_singleton.1 h, List.intercalate_singleton]
    | cons u ws =>
      rw [List.intercalate_cons_cons]
      rcases List.mem_cons.1 h with rfl | h
      · exact (List.prefix_append _ _).isInfix.trans (List.prefix_append _ _).isInfix
      · exact (ih h).trans (List.suffix_append _ _).isInfix

theorem lacks_of_mem_commentLines (hescaped : Lacks a b (breakClosing s.toList)) {line : String}
    (h : line ∈ commentLines (some (escapeBlockComment s))) : Lacks a b line.toList := by
  rw [commentLines] at h
  split at h
  · cases h
  · obtain ⟨cs, hcs, rfl⟩ := List.mem_map.1 h
    have hpart := infix_intercalate ['\n'] hcs
    rw [List.intercalate_splitOn, escapeBlockComment, String.toList_ofList] at hpart
    have htrim : trimRight (breakClosing s.toList) <+: breakClosing s.toList := by
      have hsuffix := List.dropWhile_suffix isBlank (l := (breakClosing s.toList).reverse)
      simpa [trimRight, dropRightWhile] using List.reverse_prefix.2 hsuffix
    rw [String.toList_ofList]
    exact hescaped.mono (hpart.trans htrim.isInfix)

theorem lacks_onOneLine (ha : a ≠ ' ') (hb : b ≠ ' ') (hescaped : Lacks a b (breakClosing s.toList)) :
    Lacks a b (onOneLine (escapeBlockComment s)).toList := by
  rw [onOneLine, escapeBlockComment, String.toList_ofList, String.toList_ofList]
  generalize breakClosing s.toList = cs at hescaped
  induction cs with
  | nil => exact hescaped
  | cons c cs ih =>
    rw [lacks_cons_iff] at hescaped
    rw [List.map_cons, lacks_cons_iff]
    refine ⟨fun hc => ?_, ih hescaped.2⟩
    split at hc
    · exact absurd hc.symm ha
    · rw [List.head?_map]
      cases hhead : cs.head? with
      | none => simp
      | some d =>
        have hd := hescaped.1 hc
        rw [hhead] at hd
        simp only [Option.map_some]
        split
        · simpa using hb.symm
        · exact hd

end

end Typegen.Text

namespace Typegen.Target

open Text (Lacks lacks_cons_iff)

theorem mem_of_mem_nonEmpty {s : String} {o : Option String} (h : s ∈ nonEmpty o) : s ∈ o := by
  cases o with
  | none => exact h
  | some t => by_cases ht : t = "" <;> simp_all [nonEmpty]

/-- Inside a block comment, maybe behind a backslash. -/
inductive Mode.InBlock : Mode → Prop
  | comment : InBlock .blockComment
  | star : InBlock .blockStar
  | backslash {m : Mode} (hm : m = .blockComment ∨ m = .blockStar) : InBlock (.backslash m)

namespace Lexis

variable {l : Lexis} {cs : List Char} {m m' : Mode} {c : Char}

/-- A text that a block comment holds: it neither closes the comment nor begins an early escape. -/
def Holds (l : Lexis) (cs : List Char) : Prop :=
  Lacks '*' '/' cs ∧ (l.earlyEscapes = true → Lacks '\\' 'u' cs)

theorem step_blockComment (hm : m.InBlock) (hstar : m = .blockStar → c ≠ '/')
    (hbackslash : ∀ m', m = .backslash m' → c ≠ 'u') : ∃ m' : Mode, m'.InBlock ∧
      l.step m c = (m', []) ∧ (m' = .blockStar → c = '*') ∧
      ∀ m'', m' = .backslash m'' → c = '\\' ∧ l.earlyEscapes = true := by
  have hnext : ∃ m' : Mode, m'.InBlock ∧
      (if c = '*' then Mode.blockStar else .blockComment) = m' ∧ (m' = .blockStar → c = '*') ∧
      ∀ m'', m' = .backslash m'' → c = '\\' ∧ l.earlyEscapes = true := by
    split
    · exact ⟨_, .star, rfl, fun _ => ‹_›, by simp⟩
    · exact ⟨_, .comment, rfl, by simp, by simp⟩
  obtain ⟨m', hm', hstep, hnext⟩ := hnext
  by_cases hearly : c = '\\' ∧ l.earlyEscapes = true
  · cases hm with
    | comment => exact ⟨_, .backslash (.inl rfl), by simp [step, hearly], by simp, fun _ _ => hearly⟩
    | star => exact ⟨_, .backslash (.inr rfl), by simp [step, hearly], by simp, fun _ _ => hearly⟩
    | backslash hm =>
      refine ⟨m', hm', ?_, hnext⟩
      rcases hm with rfl | rfl <;> simp [step, take, hbackslash _ rfl, hstep]
  · refine ⟨m', hm', ?_, hnext⟩
    cases hm with
    | comment => simp [step, take, hearly, hstep]
    | star => simp [step, take, hearly, hstar rfl, hstep]
    | backslash hm => rcases hm with rfl | rfl <;> simp [step, take, hbackslash _ rfl, hstep]

theorem scan_blockComment (hm : m.InBlock) (hcs : l.Holds cs)
    (hstar : m = .blockStar → cs.head? ≠ some '/')
    (hbackslash : ∀ m', m = .backslash m' → cs.head? ≠ some 'u') :
    ∃ m' : Mode, m'.InBlock ∧ l.scan m cs = ([], m') := by
  induction cs generalizing m with
  | nil => exact ⟨m, hm, rfl⟩
  | cons c cs ih =>
    simp only [List.head?_cons, ne_eq, Option.some.injEq] at hstar hbackslash
    obtain ⟨m₁, hm₁, hstep, hstar₁, hbackslash₁⟩ := step_blockComment (l := l) hm hstar hbackslash
    obtain ⟨m₂, hm₂, hscan⟩ := ih hm₁
      ⟨(lacks_cons_iff.1 hcs.1).2, fun hearly => (lacks_cons_iff.1 (hcs.2 hearly)).2⟩
      (fun h => (lacks_cons_iff.1 hcs.1).1 (hstar₁ h))
      fun m' h => (lacks_cons_iff.1 (hcs.2 (hbackslash₁ m' h).2)).1 (hbackslash₁ m' h).1
    exact ⟨m₂, hm₂, by rw [scan, hstep, hscan]; rfl⟩

/-- What leads into a comment, a text inside it, and what leads out of it. -/
theorem scan_comment {front back text : List Char}
    (hfront : l.scan m front = ([], .blockComment)) (htext : l.Holds text)
    (hback : ∀ m : Mode, m.InBlock → l.scan m back = ([], m')) :
    l.scan m (front ++ text ++ back) = ([], m') := by
  obtain ⟨m'', hm'', hscan⟩ := scan_blockComment .comment htext (by simp) (by simp)
  rw [List.append_assoc, scan_trans hfront, scan_trans hscan, hback m'' hm'']
  rfl

theorem scan_commentLines {lines : List String} (h : ∀ line ∈ lines, l.Holds line.toList) :
    l.scan .blockComment ((lines.map (" * " ++ ·)).flatMap fun s => s.toList ++ ['\n']) =
      ([], .blockComment) := by
  induction lines with
  | nil => rfl
  | cons line lines ih =>
    rw [List.forall_mem_cons] at h
    have hline : l.scan .blockComment ((" * " ++ line).toList ++ ['\n']) = ([], .blockComment) := by
      rw [String.toList_append]
      refine scan_comment rfl h.1 fun m hm => ?_
      rcases hm with _ | _ | rfl | rfl <;> rfl
    rw [List.map_cons, List.flatMap_cons, scan_trans hline, ih h.2]
    rfl

section

variable (hslash : l.slashComments = true) {description : Option String}
  (hdescription : ∀ s ∈ description, l.earlyEscapes = true → Lacks '\\' 'u' s.toList)

include hslash hdescription

/-- A description over several lines. -/
theorem lines_blockComment : l.Lines (blockComment description) [] := by
  unfold blockComment
  cases hsome : nonEmpty description with
  | none => exact .nil
  | some s =>
    have hopen : l.scan .code ("/**".toList ++ ['\n']) = ([], .blockComment) := by
      simp [scan, step, take, start, isSpace, hslash]
    have hescaped := fun hearly =>
      Text.unescaping_breakClosing (hdescription s (mem_of_mem_nonEmpty hsome) hearly)
    have hbody := scan_commentLines (l := l) fun line hline =>
      ⟨Text.lacks_of_mem_commentLines (Text.unclosing_breakClosing s.toList) hline,
        fun hearly => Text.lacks_of_mem_commentLines (hescaped hearly) hline⟩
    have hclose : l.scan .blockComment (" */".toList ++ ['\n']) = ([], .code) := rfl
    unfold Lines
    dsimp only
    rw [List.append_assoc, List.flatMap_append, List.flatMap_append, List.flatMap_singleton,
      List.flatMap_singleton, scan_trans hopen, scan_trans hbody, hclose]
    rfl

/-- A description on one line. -/
theorem lines_shortBlockComment {indent : String} (hindent : l.Shut indent []) :
    l.Lines (shortBlockComment indent description) [] := by
  unfold shortBlockComment
  cases hsome : nonEmpty description with
  | none => exact .nil
  | some s =>
    have hholds : l.Holds (Text.onOneLine (Text.escapeBlockComment s)).toList :=
      ⟨Text.lacks_onOneLine (by decide) (by decide) (Text.unclosing_breakClosing s.toList),
        fun hearly => Text.lacks_onOneLine (by decide) (by decide)
          (Text.unescaping_breakClosing (hdescription s (mem_of_mem_nonEmpty hsome) hearly))⟩
    have hopen : l.scan .code (indent ++ "/** ").toList = ([], .blockComment) := by
      rw [String.toList_append, scan_trans hindent]
      simp [scan, step, take, start, isSpace, hslash]
    refine Line.lines ?_
    unfold Line
    rw [String.toList_append, String.toList_append, List.append_assoc]
    refine scan_comment hopen hholds fun m hm => ?_
    rcases hm with _ | _ | rfl | rfl <;> rfl

end

end Lexis

end Typegen.Target
