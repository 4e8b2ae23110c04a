import Typegen.Proofs.Lexis

/-!
# Views on lexemes

A view picks some of the lexemes of a piece of code: its string literals (`Lexeme.raw?`), or what its
words stand for (`Lexeme.denotes?`).  `Shows` tells what is seen of a piece, and `LinesShow` what is
seen of some lines.
-/

namespace Typegen.Target

/-- What stands between the quotes of a quoted string. -/
def quotedBody (s : String) : String := String.ofList (s.toList.flatMap Text.quotedChar)

/-- The literal that a string is quoted as. -/
def Lexeme.quoted (s : String) : Lexeme := .text (quotedBody s)

/-- What a word stands for; nothing is told of other lexemes. -/
def Lexeme.denotes? (meaning? : String → Option String) : Lexeme → Option String
  | .word name => meaning? name
  | _ => none

/-- What stands between the quotes of a literal. -/
def Lexeme.raw? : Lexeme → Option String
  | .text raw => some raw
  | _ => none

/-- What the words among some lexemes stand for. -/
def denoted (meaning? : String → Option String) (ts : List Lexeme) : List String :=
  ts.filterMap (Lexeme.denotes? meaning?)

/-- The literals among some lexemes. -/
def literals (ts : List Lexeme) : List String := ts.filterMap Lexeme.raw?

/-- A separator of which nothing is seen does not show between lists. -/
theorem flatMap_intersperse {α β : Type} {f : α → List β} {sep : List α} (hsep : sep.flatMap f = [])
    (xss : List (List α)) : (xss.intersperse sep).flatten.flatMap f = xss.flatten.flatMap f := by
  induction xss with
  | nil => rfl
  | cons xs xss ih =>
    cases xss with
    | nil => rfl
    | cons ys yss =>
      rw [List.intersperse_cons_cons, List.flatten_cons, List.flatten_cons, List.flatMap_append,
        List.flatMap_append, hsep, List.nil_append, ih, ← List.flatMap_append, ← List.flatten_cons]

theorem filterMap_intersperse {view : Lexeme → Option String} {c : Char} (hc : view (.mark c) = none)
    (tss : List (List Lexeme)) :
    (tss.intersperse [.mark c]).flatten.filterMap view = tss.flatten.filterMap view := by
  rw [List.filterMap_eq_flatMap_toList, List.filterMap_eq_flatMap_toList]
  exact flatMap_intersperse (by simp [hc]) tss

section

variable {meaning? : String → Option String} {ts us : List Lexeme}

theorem mem_denoted {x : String} :
    x ∈ denoted meaning? ts ↔ ∃ name, .word name ∈ ts ∧ meaning? name = some x := by
  simp only [denoted, List.mem_filterMap]
  constructor
  · rintro ⟨t, ht, hx⟩
    cases t with
    | word name => exact ⟨name, ht, hx⟩
    | text | mark => cases hx
  · rintro ⟨name, hname, hx⟩
    exact ⟨_, hname, hx⟩

@[simp] theorem denoted_nil : denoted meaning? [] = [] := rfl

@[simp] theorem denoted_append :
    denoted meaning? (ts ++ us) = denoted meaning? ts ++ denoted meaning? us :=
  List.filterMap_append

@[simp] theorem denoted_flatMap {α : Type} (as : List α) (f : α → List Lexeme) :
    denoted meaning? (as.flatMap f) = as.flatMap fun a => denoted meaning? (f a) := by
  simp [denoted, List.filterMap_flatMap]

@[simp] theorem denoted_cons_mark (c : Char) :
    denoted meaning? (.mark c :: ts) = denoted meaning? ts := rfl

theorem denoted_cons_word {name : String} (h : meaning? name = none) :
    denoted meaning? (.word name :: ts) = denoted meaning? ts := by
  have hword : Lexeme.denotes? meaning? (.word name) = none := h
  rw [denoted, List.filterMap_cons_none hword, denoted]

@[simp] theorem literals_append : literals (ts ++ us) = literals ts ++ literals us :=
  List.filterMap_append

@[simp] theorem literals_nil : literals [] = [] := rfl

@[simp] theorem literals_cons_word (name : String) : literals (.word name :: ts) = literals ts :=
  rfl

@[simp] theorem literals_cons_mark (c : Char) : literals (.mark c :: ts) = literals ts := rfl

@[simp] theorem literals_cons_quoted (s : String) :
    literals (.quoted s :: ts) = quotedBody s :: literals ts := rfl

@[simp] theorem literals_flatMap {α : Type} (as : List α) (f : α → List Lexeme) :
    literals (as.flatMap f) = as.flatMap fun a => literals (f a) := by
  simp [literals, List.filterMap_flatMap]

end

namespace Lexis

/-- A piece of code of which a view shows some texts, in order. -/
def Shows (l : Lexis) (view : Lexeme → Option String) (text : String) (out : List String) : Prop :=
  ∃ ts, l.Reads text ts ∧ ts.filterMap view = out

/-- Lines of code of which a view shows some texts, in order. -/
def LinesShow (l : Lexis) (view : Lexeme → Option String) (lines out : List String) : Prop :=
  ∃ ts, l.Lines lines ts ∧ ts.filterMap view = out

variable {l : Lexis} {view : Lexeme → Option String} {a b c : String} {as bs : List String}
  {ts us : List Lexeme} {out out' : List String}

theorem Shows.of_eq (h : l.Shows view a out) (hout : out' = out) : l.Shows view a out' := hout ▸ h

theorem Shows.after (ha : l.Shut a ts) (hb : l.Shows view b out) :
    l.Shows view (a ++ b) (ts.filterMap view ++ out) := by
  obtain ⟨us, hreads, hus⟩ := hb
  exact ⟨_, ha.append_reads hreads, by rw [List.filterMap_append, hus]⟩

theorem Shows.before (ha : l.Shows view a out) (hb : l.Shut b ts)
    (hapart : startsApart b = true := by exact Lexis.startsApart_ofList rfl rfl) :
    l.Shows view (a ++ b) (out ++ ts.filterMap view) := by
  obtain ⟨us, hreads, hus⟩ := ha
  exact ⟨_, (hreads.append_shut hb hapart).reads, by rw [List.filterMap_append, hus]⟩

theorem Shows.prepend (ha : l.Shut a ts) (hts : ts.filterMap view = []) (hb : l.Shows view b out) :
    l.Shows view (a ++ b) out :=
  (hb.after ha).of_eq (by rw [hts, List.nil_append])

theorem Shows.append_shut (ha : l.Shows view a out) (hb : l.Shut b ts)
    (hts : ts.filterMap view = [])
    (hapart : startsApart b = true := by exact Lexis.startsApart_ofList rfl rfl) :
    l.Shows view (a ++ b) out :=
  (ha.before hb hapart).of_eq (by rw [hts, List.append_nil])

theorem Shows.enclose (ha : l.Shut a ts) (hts : ts.filterMap view = []) (hb : l.Shows view b out)
    (hc : l.Shut c us) (hus : us.filterMap view = [])
    (hapart : startsApart c = true := by exact Lexis.startsApart_ofList rfl rfl) :
    l.Shows view (a ++ b ++ c) out :=
  (hb.prepend ha hts).append_shut hc hus hapart

theorem Shows.between (ha : l.Shows view a out) (hb : l.Shows view b out') (hc : l.Shut c ts)
    (hts : ts.filterMap view = [])
    (hapart : startsApart c = true := by exact Lexis.startsApart_ofList rfl rfl) :
    l.Shows view (a ++ c ++ b) (out ++ out') := by
  obtain ⟨us, hreads, hus⟩ := ha
  obtain ⟨vs, hreads', hvs⟩ := hb
  exact ⟨_, (hreads.append_shut hc hapart).append_reads hreads', by simp [hts, hus, hvs]⟩

variable {α : Type}

/-- Items between which a separator stands show what each of them shows. -/
theorem shows_intercalate {f : α → String} {g : α → List String} {xs : List α} (hc : l.Shut c ts)
    (hts : ts.filterMap view = []) (hapart : startsApart c = true)
    (h : ∀ x ∈ xs, l.Shows view (f x) (g x)) :
    l.Shows view (c.intercalate (xs.map f)) (xs.flatMap g) := by
  induction xs with
  | nil => exact ⟨[], Shut.reads (shut_ofList rfl rfl), rfl⟩
  | cons x xs ih =>
    rw [List.forall_mem_cons] at h
    cases xs with
    | nil => simpa using h.1
    | cons y ys =>
      rw [List.map_cons, List.map_cons, String.intercalate_cons_cons, List.flatMap_cons]
      exact h.1.between (ih h.2) hc hts hapart

theorem Shows.lines (h : l.Shows view a out) : l.LinesShow view [a] out := by
  obtain ⟨ts, hreads, hts⟩ := h
  exact ⟨ts, hreads.line.lines, hts⟩

theorem LinesShow.of_eq (h : l.LinesShow view as out) (hout : out' = out) :
    l.LinesShow view as out' := hout ▸ h

theorem LinesShow.append (ha : l.LinesShow view as out) (hb : l.LinesShow view bs out') :
    l.LinesShow view (as ++ bs) (out ++ out') := by
  obtain ⟨ts, hlines, hts⟩ := ha
  obtain ⟨us, hlines', hus⟩ := hb
  exact ⟨_, hlines.append hlines', by simp [hts, hus]⟩

theorem linesShow_of_forall₂ {g : α → List String} {xs : List α}
    (h : List.Forall₂ (fun x line => l.LinesShow view [line] (g x)) xs as) :
    l.LinesShow view as (xs.flatMap g) := by
  induction h with
  | nil => exact ⟨[], .nil, rfl⟩
  | cons hfirst _ ih => exact hfirst.append ih

theorem linesShow_map {f : α → String} {g : α → List String} {xs : List α}
    (h : ∀ x ∈ xs, l.LinesShow view [f x] (g x)) : l.LinesShow view (xs.map f) (xs.flatMap g) :=
  linesShow_of_forall₂ (List.forall₂_map_right_iff.2 (List.forall₂_same.2 h))

theorem linesShow_flatten {g : α → List String} {xs : List α} {liness : List (List String)}
    (h : List.Forall₂ (fun x lines => l.LinesShow view lines (g x)) xs liness) :
    l.LinesShow view liness.flatten (xs.flatMap g) := by
  induction h with
  | nil => exact ⟨[], .nil, rfl⟩
  | cons hfirst _ ih => exact hfirst.append ih

end Lexis

end Typegen.Target
