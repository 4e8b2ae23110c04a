import Typegen.Declaration.Spelling
import Typegen.Proofs.Formed
import Typegen.Proofs.Views

/-!
# Type expressions as lexemes

Apart from its spaces, the text of a type expression is put together from the outside in: some
lexemes in front of what an expression holds, and some behind it.  A `LexemeStyle` gives them for
each kind of expression, and `TypeExpr.lexemes` puts them together.  Where the style belongs to a
target (`LexemeStyle.Spells`), these are the lexemes of the texts that the target writes.
-/

namespace Typegen

open Target (Lexeme Lexis)

/-- The lexemes that stand around what expressions hold. -/
structure LexemeStyle where
  /-- The lexemes in front, from the kind and the name of an expression. -/
  front : TypeKind → String → List Lexeme
  /-- The lexemes behind. -/
  back : TypeKind → List Lexeme

namespace LexemeStyle

/-- The lexemes that an expression has of its own. -/
def own (s : LexemeStyle) (t : TypeExpr) : List Lexeme := s.front t.kind t.name ++ s.back t.kind

/-- The lexemes are those of the texts that a target writes. -/
structure Spells (s : LexemeStyle) (l : Lexis) (style : TypeStyle) : Prop where
  any : ∀ name, s.front .any name = [.word name] ∧ s.back .any = []
  primitive : ∀ name, s.front .primitive name = [.word name] ∧ s.back .primitive = []
  named : ∀ name, s.front .named name = [.word name] ∧ s.back .named = []
  literal : ∀ value, l.Reads (style.literal value) (s.front .literal value) ∧ s.back .literal = []
  array : ∀ {text ts}, l.Reads text ts →
    l.Reads (style.array text) (s.front .array "" ++ ts ++ s.back .array)
  map : ∀ {text ts}, l.Reads text ts →
    l.Reads (style.map text) (s.front .map "" ++ ts ++ s.back .map)
  optional : ∀ {text ts} (null : Bool) (kind : TypeKind), l.Reads text ts →
    l.Reads (style.optional null kind text) (s.front .optional "" ++ ts ++ s.back .optional)

end LexemeStyle

namespace TypeExpr

mutual

/-- The lexemes of an expression. -/
def lexemes (s : LexemeStyle) : TypeExpr → List Lexeme
  | ⟨kind, name, args, _, _, _, _, _⟩ => s.front kind name ++ lexemesAll s args ++ s.back kind

/-- The lexemes of some expressions. -/
def lexemesAll (s : LexemeStyle) : List TypeExpr → List Lexeme
  | [] => []
  | t :: ts => lexemes s t ++ lexemesAll s ts

end

variable {s : LexemeStyle} {l : Lexis} {style : TypeStyle} {t : TypeExpr}

mutual

/-- The lexemes of an expression are those that it and the expressions inside it have of their
own. -/
theorem mem_lexemes (t : TypeExpr) {x : Lexeme} :
    x ∈ t.lexemes s ↔ ∃ e ∈ t.walk, x ∈ s.own e := by
  obtain ⟨kind, name, args, _, _, _, _, _⟩ := t
  have hargs := mem_lexemesAll args (x := x)
  rw [lexemes, List.mem_append, List.mem_append, hargs, walk]
  simp only [List.mem_cons, exists_eq_or_imp, LexemeStyle.own, List.mem_append]
  exact or_right_comm

theorem mem_lexemesAll (ts : List TypeExpr) {x : Lexeme} :
    x ∈ lexemesAll s ts ↔ ∃ e ∈ walkAll ts, x ∈ s.own e := by
  match ts with
  | [] => simp [lexemesAll, walkAll]
  | t :: ts =>
    rw [lexemesAll, List.mem_append, mem_lexemes t, mem_lexemesAll ts, walkAll]
    simp only [List.mem_append, or_and_right, exists_or]

end

/-- What the words of an expression stand for. -/
theorem mem_denoted_lexemes {meaning? : String → Option String} {x : String} :
    x ∈ Target.denoted meaning? (t.lexemes s) ↔
      ∃ e ∈ t.walk, x ∈ Target.denoted meaning? (s.own e) := by
  simp only [Target.mem_denoted, mem_lexemes]
  constructor
  · rintro ⟨name, ⟨e, he, hname⟩, hx⟩
    exact ⟨e, he, name, hname, hx⟩
  · rintro ⟨e, he, name, hname, hx⟩
    exact ⟨name, ⟨e, he, hname⟩, hx⟩

/-- An expression that the mapping makes has a text, and the text consists of the lexemes of the
expression. -/
theorem exists_reads_spell (hs : s.Spells l style) {target : Target} {P : String → Prop}
    (h : t.Formed target P) (hany : Text.isPlainIdentifier target.anyType.toList = true)
    (hspelling : ∀ p, Text.isPlainIdentifier (target.spelling p).toList = true)
    (hnames : ∀ id, P id → Text.isPlainIdentifier id.toList = true) :
    ∃ text, t.spell style = .ok text ∧ l.Reads text (t.lexemes s) := by
  induction h with
  | any =>
    obtain ⟨hfront, hback⟩ := hs.any target.anyType
    refine ⟨_, rfl, ?_⟩
    simpa [TypeExpr.any, lexemes, lexemesAll, hfront, hback] using Lexis.reads_name hany
  | primitive p notes =>
    obtain ⟨hfront, hback⟩ := hs.primitive (target.spelling p)
    refine ⟨_, rfl, ?_⟩
    simpa [TypeExpr.primitive, lexemes, lexemesAll, hfront, hback] using
      Lexis.reads_name (hspelling p)
  | @named id hid definition byReference =>
    obtain ⟨hfront, hback⟩ := hs.named id
    refine ⟨_, rfl, ?_⟩
    simpa [TypeExpr.named, lexemes, lexemesAll, hfront, hback] using
      Lexis.reads_name (hnames id hid)
  | literal value =>
    obtain ⟨hreads, hback⟩ := hs.literal value
    refine ⟨_, rfl, ?_⟩
    simpa [TypeExpr.literal, lexemes, lexemesAll, hback] using hreads
  | array _ ih =>
    obtain ⟨text, htext, hreads⟩ := ih
    refine ⟨_, bind_eq_ok.2 ⟨text, htext, rfl⟩, ?_⟩
    simpa [TypeExpr.array, lexemes, lexemesAll] using hs.array hreads
  | map _ ih =>
    obtain ⟨text, htext, hreads⟩ := ih
    refine ⟨_, bind_eq_ok.2 ⟨text, htext, rfl⟩, ?_⟩
    simpa [TypeExpr.map, lexemes, lexemesAll] using hs.map hreads
  | @optional item _ absent null ih =>
    obtain ⟨text, htext, hreads⟩ := ih
    refine ⟨_, bind_eq_ok.2 ⟨text, htext, rfl⟩, ?_⟩
    simpa [lexemes, lexemesAll] using hs.optional null item.kind hreads

end TypeExpr

end Typegen
