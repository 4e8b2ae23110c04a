import Typegen.Proofs.Shapes
import Typegen.Proofs.Lexis
import Typegen.Target.Render

/-!
# Imported packages in Go

The only type that is written with a dot is the type of times, so the text of a type tells whether it
holds a time (`TellsTime`).  A file imports the package of times exactly if some type in it mentions
that type, and the packages for reading and writing exactly if it has a union (`mem_imports_iff`).
-/

namespace Typegen.Target.Go

/-- The fields that are written for a struct. -/
def ownFields (fields : List Field) (base : Option String) : List Field :=
  if (nonEmpty base).isSome then dataFields fields else fields

/-- A type that is written in a declaration: that of a field, or the one behind a name. -/
inductive WritesType : Declaration → String → Prop
  | field {h : Header} {fields : List Field} {base : Option String} {additional : Bool} {f : Field}
      {text : String} (hf : f ∈ ownFields fields base) (htext : fieldType f = .ok text) :
      WritesType (.struct h fields base additional) text
  | synonym {h : Header} {target : TypeExpr} {text : String} (htext : renderType target = .ok text) :
      WritesType (.synonym h target) text

/-- An expression is a time or holds one. -/
def HasTime (t : TypeExpr) : Prop := ∃ e ∈ t.walk, e.kind = .primitive ∧ e.name = "time.Time"

/-- A text mentions the type of times. -/
def MentionsTime (text : String) : Prop := "time.Time".toList <:+: text.toList

variable {text : String} {t : TypeExpr}

theorem MentionsTime.append_left (h : MentionsTime text) (front : String) :
    MentionsTime (front ++ text) := by
  unfold MentionsTime at h ⊢
  rw [String.toList_append]
  exact h.trans (List.suffix_append _ _).isInfix

theorem MentionsTime.mem_dot (h : MentionsTime text) : '.' ∈ text.toList :=
  h.subset (by decide)

theorem hasTime_iff_of_args {item : TypeExpr} (hkind : t.kind ≠ .primitive)
    (hargs : t.args = [item]) : HasTime t ↔ HasTime item := by
  simp [HasTime, TypeExpr.walk_eq t, hargs, TypeExpr.walkAll_eq, hkind]

theorem hasTime_iff_of_nil (hargs : t.args = []) :
    HasTime t ↔ t.kind = .primitive ∧ t.name = "time.Time" := by
  simp [HasTime, TypeExpr.walk_eq t, hargs, TypeExpr.walkAll_eq]

/-- A text tells whether a type holds a time: then it mentions that type, else it has no dot. -/
structure TellsTime (t : TypeExpr) (text : String) : Prop where
  mentions : HasTime t → MentionsTime text
  hasTime : '.' ∈ text.toList → HasTime t

theorem TellsTime.mentionsTime_iff (h : TellsTime t text) : MentionsTime text ↔ HasTime t :=
  ⟨fun hmentions => h.hasTime hmentions.mem_dot, h.mentions⟩

theorem tellsTime_of_notMem (htime : ¬ HasTime t) (hdot : '.' ∉ text.toList) : TellsTime t text :=
  ⟨fun h => absurd h htime, fun h => absurd h hdot⟩

theorem TellsTime.of_args {item : TypeExpr} {front : String} (h : TellsTime item text)
    (hkind : t.kind ≠ .primitive) (hargs : t.args = [item]) (hfront : '.' ∉ front.toList) :
    TellsTime t (front ++ text) := by
  have htime := hasTime_iff_of_args hkind hargs
  refine ⟨fun h' => (h.mentions (htime.1 h')).append_left front, fun hdot => htime.2 (h.hasTime ?_)⟩
  rw [String.toList_append, List.mem_append] at hdot
  exact hdot.resolve_left hfront

section

variable {names : Naming.Table}

theorem tellsTime_spelling (p : Schema.Primitive) (notes : List String) :
    TellsTime (.primitive (Target.go.spelling p) notes) (Target.go.spelling p) := by
  have htime := hasTime_iff_of_nil (t := .primitive (Target.go.spelling p) notes) rfl
  by_cases hp : p = .timestamp
  · subst hp
    exact ⟨fun _ => List.infix_rfl, fun _ => htime.2 ⟨rfl, rfl⟩⟩
  · refine tellsTime_of_notMem (fun h => hp ?_) ?_
    · have hname : Target.go.spelling p = "time.Time" := (htime.1 h).2
      cases p <;> first | rfl | exact absurd hname (by decide)
    · cases p <;> first | exact absurd rfl hp | decide

/-- A type has a text, which tells whether it holds a time. -/
theorem exists_renderType (hplain : names.Plain) {t : TypeExpr}
    (h : t.Formed .go (· ∈ names.typeNames)) :
    ∃ text, renderType t = .ok text ∧ TellsTime t text := by
  induction h with
  | any =>
    refine ⟨_, rfl, tellsTime_of_notMem ?_ (by decide)⟩
    simp [hasTime_iff_of_nil, TypeExpr.any]
  | primitive p notes => exact ⟨_, rfl, tellsTime_spelling p notes⟩
  | @named id hid =>
    refine ⟨_, rfl, tellsTime_of_notMem ?_
      (Text.notMem_of_isPlainIdentifier (hplain.types id hid) (by decide))⟩
    simp [hasTime_iff_of_nil, TypeExpr.named]
  | literal value =>
    refine ⟨"string", rfl, tellsTime_of_notMem ?_ (by decide)⟩
    simp [hasTime_iff_of_nil, TypeExpr.literal]
  | array _ ih =>
    obtain ⟨text, htext, htells⟩ := ih
    exact ⟨_, bind_eq_ok.2 ⟨text, htext, rfl⟩,
      htells.of_args (by simp [TypeExpr.array]) rfl (by decide)⟩
  | map _ ih =>
    obtain ⟨text, htext, htells⟩ := ih
    exact ⟨_, bind_eq_ok.2 ⟨text, htext, rfl⟩,
      htells.of_args (by simp [TypeExpr.map]) rfl (by decide)⟩
  | @optional item _ absent null ih =>
    obtain ⟨text, htext, htells⟩ := ih
    have hfront (front : String) (hdot : '.' ∉ front.toList) : TellsTime
        { kind := .optional, args := [item], mayBeAbsent := absent, mayBeNull := null }
        (front ++ text) := htells.of_args (by simp) rfl hdot
    refine ⟨_, bind_eq_ok.2 ⟨text, htext, rfl⟩, ?_⟩
    simp only [style]
    split
    · simpa using hfront "" (by decide)
    · exact hfront "*" (by decide)

theorem exists_fieldType (hplain : names.Plain) {f : Field} (h : f.Shaped .go names) :
    ∃ text, fieldType f = .ok text ∧ TellsTime f.type text := by
  unfold fieldType
  split
  · next href =>
    simp only [Bool.and_eq_true, decide_eq_true_eq] at href
    obtain ⟨hid, hargs⟩ := h.type.of_kind_named href.1
    have hdot := Text.notMem_of_isPlainIdentifier (hplain.types _ hid)
      (show Text.isIdentifierTail '.' = false by decide)
    refine ⟨_, rfl, tellsTime_of_notMem ?_ (by simpa using hdot)⟩
    simp [hasTime_iff_of_nil hargs, href.1]
  · exact exists_renderType hplain h.type

/-- The fields that are written are those of keys, and no other field holds a time. -/
theorem shaped_ownFields {header : Header} {fields : List Field} {base : Option String}
    {additional : Bool} (hplain : names.Plain)
    (h : Declaration.Shaped .go names (.struct header fields base additional)) :
    (∀ f ∈ ownFields fields base, f.Shaped .go names) ∧
      ∀ f, f ∈ ownFields fields base ∧ HasTime f.type ↔ f ∈ fields ∧ HasTime f.type := by
  cases h with
  | struct _ hfields => exact ⟨hfields, fun f => Iff.rfl⟩
  | @branch _ fields b tagName _ hunion _ hfields =>
    have hown : ownFields (b.field tagName :: fields) (some b.union) = fields := by
      rw [ownFields, nonEmpty_of_isPlainIdentifier (hplain.types _ hunion)]
      exact dataFields_of_shaped hfields
    have htag : ¬ HasTime (b.field tagName).type := by
      simp [hasTime_iff_of_nil, Mapping.Branch.field, TypeExpr.literal]
    rw [hown]
    refine ⟨hfields, fun f => ?_⟩
    rw [List.mem_cons, or_and_right]
    refine (or_iff_right ?_).symm
    rintro ⟨rfl, htime⟩
    exact htag htime

/-- A declaration has a text. -/
theorem exists_text (hplain : names.Plain) {d : Declaration} (h : d.Shaped .go names)
    (s : Setting) : ∃ text, go.renderDeclaration s d = .ok text := by
  have hlines : ∃ lines, declarationLines d = .ok lines := by
    cases d with
    | struct header fields base additional =>
      have hfields : ∀ f ∈ ownFields fields base, ∃ lines, fieldLines f = .ok lines ∧ True := by
        intro f hf
        obtain ⟨type, htype, -⟩ := exists_fieldType hplain ((shaped_ownFields hplain h).1 f hf)
        exact ⟨_, bind_eq_ok.2 ⟨type, htype, rfl⟩, trivial⟩
      obtain ⟨liness, hliness, -⟩ := exists_mapM hfields
      exact ⟨_, bind_eq_ok.2 ⟨_, bind_eq_ok.2 ⟨liness, hliness, rfl⟩, rfl⟩⟩
    | enum | union => exact ⟨_, rfl⟩
    | synonym header target =>
      cases h with
      | synonym _ htarget =>
        obtain ⟨type, htype, -⟩ := exists_renderType hplain htarget
        exact ⟨_, bind_eq_ok.2 ⟨type, htype, rfl⟩⟩
  obtain ⟨lines, hlines⟩ := hlines
  exact ⟨_, bind_eq_ok.2 ⟨lines, hlines, rfl⟩⟩

theorem writesTime_iff (hplain : names.Plain) {d : Declaration} (h : d.Shaped .go names) :
    (∃ text, WritesType d text ∧ MentionsTime text) ↔ ∃ t ∈ d.types, HasTime t := by
  cases d with
  | struct header fields base additional =>
    obtain ⟨hshaped, hown⟩ := shaped_ownFields hplain h
    constructor
    · rintro ⟨text, hwrites, hmentions⟩
      cases hwrites with
      | @field _ _ _ _ f _ hf htext =>
        obtain ⟨text', htext', htells⟩ := exists_fieldType hplain (hshaped f hf)
        obtain rfl := Except.ok.inj (htext.symm.trans htext')
        have hmem := (hown f).1 ⟨hf, htells.mentionsTime_iff.1 hmentions⟩
        exact ⟨f.type, List.mem_map_of_mem hmem.1, hmem.2⟩
    · rintro ⟨_, ht, htime⟩
      obtain ⟨f, hf, rfl⟩ := List.mem_map.1 ht
      have hmem := (hown f).2 ⟨hf, htime⟩
      obtain ⟨text, htext, htells⟩ := exists_fieldType hplain (hshaped f hmem.1)
      exact ⟨text, .field hmem.1 htext, htells.mentions htime⟩
  | enum | union =>
    constructor
    · rintro ⟨text, ⟨⟩, -⟩
    · rintro ⟨_, ⟨⟩, -⟩
  | synonym header target =>
    cases h with
    | synonym _ htarget =>
      obtain ⟨text, htext, htells⟩ := exists_renderType hplain htarget
      constructor
      · rintro ⟨text', hwrites, hmentions⟩
        cases hwrites with
        | synonym htext' =>
          obtain rfl := Except.ok.inj (htext.symm.trans htext')
          exact ⟨target, List.mem_singleton_self _, htells.mentionsTime_iff.1 hmentions⟩
      · rintro ⟨_, ht, htime⟩
        obtain rfl := List.mem_singleton.1 ht
        exact ⟨text, .synonym htext, htells.mentions htime⟩

/-- The packages that are imported are those that are needed. -/
theorem mem_imports_iff (hplain : names.Plain) {ds : List Declaration}
    (hds : ∀ d ∈ ds, d.Shaped .go names) (path : String) :
    path ∈ imports ds ↔
      (path = "encoding/json" ∨ path = "fmt") ∧ (∃ d ∈ ds, d.isUnion = true) ∨
      path = "time" ∧ ∃ d ∈ ds, ∃ text, WritesType d text ∧ MentionsTime text := by
  have htime : (∃ d ∈ ds, ∃ text, WritesType d text ∧ MentionsTime text) ↔
      (Declaration.walkTypes ds).any (fun t => t.kind = .primitive && t.name = "time.Time") = true := by
    simp only [List.any_eq_true, Declaration.walkTypes, List.mem_flatMap, Bool.and_eq_true,
      decide_eq_true_eq]
    constructor
    · rintro ⟨d, hd, htext⟩
      obtain ⟨t, ht, e, he, htime⟩ := (writesTime_iff hplain (hds d hd)).1 htext
      exact ⟨e, ⟨d, hd, t, ht, he⟩, htime⟩
    · rintro ⟨e, ⟨d, hd, t, ht, he⟩, htime⟩
      exact ⟨d, hd, (writesTime_iff hplain (hds d hd)).2 ⟨t, ht, e, he, htime⟩⟩
  rw [htime, ← List.any_eq_true, imports, List.mem_append]
  cases ds.any (·.isUnion) <;> cases (Declaration.walkTypes ds).any _ <;> simp

end

end Typegen.Target.Go
