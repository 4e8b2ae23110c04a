import Typegen.Proofs.Declared
import Typegen.Proofs.Quotation
import Typegen.Proofs.TypeSyntax
import Typegen.Target.TypeScript.Render

/-!
# The text of a type determines it

The text of a type expression is read as exactly one expression: the one it was written for, without
what no type tells (`TypeExpr.erase`).  An array puts its items in parentheses when a bar between
blanks occurs in their text.  That may happen without need, for a literal or inside braces, but a
text without such a bar never is a union, so that brackets may follow it (`WrittenAs.tight`).
-/

namespace Typegen

namespace TypeExpr

mutual

/-- An expression without what its type does not tell: the remarks, the definition that a type comes
from, how it is stored and whether a key may be missing.  An optional value that is never null is
what it holds. -/
def erase : TypeExpr → TypeExpr
  | ⟨kind, name, args, _, null, _, _, _⟩ =>
    match kind, null, args with
    | .optional, false, item :: _ => item.erase
    | kind, null, args => { kind := kind, name := name, args := eraseAll args, mayBeNull := null }

/-- The same for a list of expressions. -/
def eraseAll : List TypeExpr → List TypeExpr
  | [] => []
  | t :: rest => t.erase :: eraseAll rest

end

/-- A value or null. -/
def nullable (item : TypeExpr) : TypeExpr :=
  { kind := .optional, args := [item], mayBeNull := true }

theorem erase_array (item : TypeExpr) : (array item).erase = array item.erase := by
  simp [array, erase, eraseAll]

theorem erase_map (item : TypeExpr) : (map item).erase = map item.erase := by
  simp [map, erase, eraseAll]

end TypeExpr

namespace Target.TypeScript

open TypeExpr (nullable)

/-- The expression that a type stands for.  A union is one only if it adds null. -/
def TypeTree.expr? : TypeTree → Option TypeExpr
  | .keyword word =>
    if word = "any" then some (.any word)
    else if word ∈ ["boolean", "number", "string"] then some (.primitive word)
    else none
  | .reference name => some (.named name)
  | .literal value => some (.literal value)
  | .array item => item.expr?.map .array
  | .index item => item.expr?.map .map
  | .union left right => if right = .keyword "null" then left.expr?.map nullable else none

/-- A text is read as an expression. -/
def Reads (text : String) (t : TypeExpr) : Prop :=
  ∃ ts tree, tokens text.toList = some ts ∧ Parses .union ts tree ∧ tree.expr? = some t

theorem Reads.unique {text : String} {t t' : TypeExpr} (h : Reads text t) (h' : Reads text t') :
    t = t' := by
  obtain ⟨ts, tree, htokens, hparses, hexpr⟩ := h
  obtain ⟨ts', tree', htokens', hparses', hexpr'⟩ := h'
  obtain rfl := Option.some.inj (htokens.symm.trans htokens')
  obtain rfl := hparses.unique hparses'
  exact Option.some.inj (hexpr.symm.trans hexpr')

/-! ## What is written -/

/-- A text consists of the given tokens wherever no name continues it, and these are read as a type.
Brackets may follow unless a bar between blanks occurs in the text. -/
structure WrittenAs (text : String) (ts : List Token) (tree : TypeTree) : Prop where
  tokens : ∀ rest, Separate rest →
    tokens (text.toList ++ rest) = (tokens rest).map (ts ++ ·)
  parses : Parses .union ts tree
  tight : Text.occursIn [' ', '|', ' '] text.toList = false → Parses .array ts tree

variable {text : String} {ts : List Token} {tree : TypeTree}

theorem WrittenAs.of_array (htokens : ∀ rest, Separate rest →
    TypeScript.tokens (text.toList ++ rest) = (TypeScript.tokens rest).map (ts ++ ·))
    (h : Parses .array ts tree) : WrittenAs text ts tree :=
  ⟨htokens, .member h, fun _ => h⟩

theorem writtenAs_word (hname : isName text.toList = true)
    (h : Parses .primary [.word text] tree) : WrittenAs text [.word text] tree :=
  .of_array (fun _ hrest => tokens_name hname hrest) (.single h)

theorem writtenAs_quote (value : String) :
    WrittenAs (Text.quote value) [.text value] (.literal value) := by
  refine .of_array (fun rest _ => ?_) (.single (.literal value))
  have hread := Json.readString_quoted value.toList rest
  have hchars : (Text.quote value).toList ++ rest =
      '"' :: (value.toList.flatMap Text.quotedChar ++ '"' :: rest) := by
    simp [Text.quote, Text.quotedChars]
  rw [hchars, tokens_text hread]
  rfl

theorem WrittenAs.array (h : WrittenAs text ts tree) :
    ∃ ts', WrittenAs (style.array text) ts' (.array tree) := by
  cases hbar : Text.occursIn [' ', '|', ' '] text.toList with
  | false =>
    refine ⟨ts ++ [.mark '[', .mark ']'], .of_array (fun rest _ => ?_) (.array (h.tight hbar))⟩
    have hchars : (style.array text).toList ++ rest = text.toList ++ '[' :: ']' :: rest := by
      simp [style, hbar]
    rw [hchars, h.tokens _ (separate_cons (by decide) _), tokens_mark (by decide),
      tokens_mark (by decide)]
    simp [Function.comp_def]
  | true =>
    refine ⟨.mark '(' :: (ts ++ [.mark ')']) ++ [.mark '[', .mark ']'],
      .of_array (fun rest _ => ?_) (.array (.single (.group h.parses)))⟩
    have hchars : (style.array text).toList ++ rest =
        '(' :: (text.toList ++ ')' :: '[' :: ']' :: rest) := by
      simp [style, hbar]
    rw [hchars, tokens_mark (by decide), h.tokens _ (separate_cons (by decide) _),
      tokens_mark (by decide), tokens_mark (by decide), tokens_mark (by decide)]
    simp [Function.comp_def]

theorem WrittenAs.map (h : WrittenAs text ts tree) :
    WrittenAs (style.map text) (indexTokens "key" ++ (ts ++ [.mark '\x7d'])) (.index tree) := by
  refine .of_array (fun rest _ => ?_) (.single (.index "key" h.parses))
  have hchars : (style.map text).toList ++ rest =
      '\x7b' :: ' ' :: '[' :: ("key".toList ++ ':' :: ' ' :: ("string".toList ++
        ']' :: ':' :: ' ' :: (text.toList ++ ' ' :: '\x7d' :: rest))) := by
    simp [style]
  rw [hchars, tokens_mark (by decide), tokens_space, tokens_mark (by decide),
    tokens_name (by decide) (separate_cons (by decide) _), tokens_mark (by decide), tokens_space,
    tokens_name (by decide) (separate_cons (by decide) _), tokens_mark (by decide),
    tokens_mark (by decide), tokens_space, h.tokens _ (separate_cons (by decide) _), tokens_space,
    tokens_mark (by decide)]
  simp [indexTokens, Function.comp_def]

theorem occursIn_append (pattern before behind : List Char) :
    Text.occursIn pattern (before ++ (pattern ++ behind)) = true := by
  induction before with
  | nil =>
    rcases hcs : pattern ++ behind with _ | ⟨c, cs⟩
    · simp [(List.append_eq_nil_iff.1 hcs).1, Text.occursIn]
    · have hfront : pattern.isPrefixOf (c :: cs) = true := by
        rw [List.isPrefixOf_iff_prefix, ← hcs]
        exact List.prefix_append _ _
      simp [Text.occursIn, hfront]
  | cons c before ih => simp [Text.occursIn, ih]

theorem WrittenAs.orNull (h : WrittenAs text ts tree) :
    WrittenAs (text ++ " | null") (ts ++ [.mark '|', .word "null"])
      (.union tree (.keyword "null")) := by
  refine ⟨fun rest hrest => ?_, .union h.parses (.single (.keyword (by decide))), fun hbar => ?_⟩
  · have hchars : (text ++ " | null").toList ++ rest =
        text.toList ++ ' ' :: '|' :: ' ' :: ("null".toList ++ rest) := by
      simp
    rw [hchars, h.tokens _ (separate_cons (by decide) _), tokens_space, tokens_mark (by decide),
      tokens_space, tokens_name (by decide) hrest]
    simp [Function.comp_def]
  · have hchars : (text ++ " | null").toList =
        text.toList ++ ([' ', '|', ' '] ++ "null".toList) := by
      simp
    rw [hchars, occursIn_append] at hbar
    cases hbar

/-! ## Expressions -/

/-- A name that a declared type may have. -/
def IsTypeName (name : String) : Prop := isName name.toList = true ∧ name ∉ keywords

variable {t u : TypeExpr}

theorem spelling_cases (p : Schema.Primitive) :
    Target.typescript.spelling p ∈ ["boolean", "number", "string"] := by
  cases p <;> decide

theorem writtenAs_primitive {word : String} (h : word ∈ ["boolean", "number", "string"]) :
    WrittenAs word [.word word] (.keyword word) ∧
      (TypeTree.keyword word).expr? = some (.primitive word) := by
  have hall : ∀ w ∈ ["boolean", "number", "string"],
      isName w.toList = true ∧ w ∈ keywords ∧ w ≠ "any" := by decide
  obtain ⟨hname, hkeyword, hany⟩ := hall word h
  exact ⟨writtenAs_word hname (.keyword hkeyword), by rw [TypeTree.expr?, if_neg hany, if_pos h]⟩

/-- Every expression has a text, which is read as what it tells. -/
theorem exists_writtenAs (h : t.Formed .typescript IsTypeName) :
    ∃ text ts tree, renderType t = .ok text ∧ WrittenAs text ts tree ∧
      tree.expr? = some t.erase := by
  induction h with
  | any =>
    exact ⟨"any", _, .keyword "any", rfl, writtenAs_word (by decide) (.keyword (by decide)), rfl⟩
  | primitive p notes =>
    obtain ⟨hwritten, hexpr⟩ := writtenAs_primitive (spelling_cases p)
    exact ⟨_, _, _, rfl, hwritten, hexpr⟩
  | @named id h definition byReference =>
    exact ⟨id, _, .reference id, rfl, writtenAs_word h.1 (.reference h.2), rfl⟩
  | literal value => exact ⟨_, _, .literal value, rfl, writtenAs_quote value, rfl⟩
  | array _ ih =>
    obtain ⟨text, ts, tree, hrender, hwritten, hexpr⟩ := ih
    obtain ⟨ts', hwritten'⟩ := hwritten.array
    refine ⟨_, ts', .array tree, ?_, hwritten', ?_⟩
    · exact bind_eq_ok.2 ⟨text, hrender, rfl⟩
    · rw [TypeTree.expr?, hexpr, TypeExpr.erase_array]
      rfl
  | map _ ih =>
    obtain ⟨text, ts, tree, hrender, hwritten, hexpr⟩ := ih
    refine ⟨_, _, .index tree, ?_, hwritten.map, ?_⟩
    · exact bind_eq_ok.2 ⟨text, hrender, rfl⟩
    · rw [TypeTree.expr?, hexpr, TypeExpr.erase_map]
      rfl
  | optional _ absent null ih =>
    obtain ⟨text, ts, tree, hrender, hwritten, hexpr⟩ := ih
    cases null with
    | false =>
      refine ⟨text, ts, tree, ?_, hwritten, ?_⟩
      · exact bind_eq_ok.2 ⟨text, hrender, rfl⟩
      · rw [hexpr]
        rfl
    | true =>
      refine ⟨text ++ " | null", _, .union tree (.keyword "null"), ?_, hwritten.orNull, ?_⟩
      · exact bind_eq_ok.2 ⟨text, hrender, rfl⟩
      · rw [TypeTree.expr?, if_pos rfl, hexpr]
        rfl

/-- The text of an expression is read as what the expression tells and as nothing else. -/
theorem reads_iff (h : t.Formed .typescript IsTypeName) :
    ∃ text, renderType t = .ok text ∧ ∀ e, Reads text e ↔ e = t.erase := by
  obtain ⟨text, ts, tree, hrender, hwritten, hexpr⟩ := exists_writtenAs h
  have hreads : Reads text t.erase := by
    refine ⟨ts, tree, ?_, hwritten.parses, hexpr⟩
    have htokens := hwritten.tokens [] (by simp [Separate])
    rwa [List.append_nil, tokens_nil, Option.map_some, List.append_nil] at htokens
  refine ⟨text, hrender, fun e => ⟨fun he => he.unique hreads, ?_⟩⟩
  rintro rfl
  exact hreads

theorem erase_eq_of_renderType (ht : t.Formed .typescript IsTypeName)
    (hu : u.Formed .typescript IsTypeName) (h : renderType t = renderType u) :
    t.erase = u.erase := by
  obtain ⟨text, htext, hreads⟩ := reads_iff ht
  obtain ⟨text', htext', hreads'⟩ := reads_iff hu
  obtain rfl : text = text' := Except.ok.inj (htext.symm.trans (h.trans htext'))
  exact (hreads' _).1 ((hreads _).2 rfl)

/-! ## Names of types -/

theorem isName_of_isPlainIdentifier {cs : List Char} (h : Text.isPlainIdentifier cs = true) :
    isName cs = true := by
  rcases cs with _ | ⟨c, cs⟩
  · cases h
  · rw [Text.isPlainIdentifier, Bool.and_eq_true, List.all_eq_true] at h
    rw [isName, Bool.and_eq_true, List.all_eq_true]
    refine ⟨?_, fun d hd => by simp [isNamePart, h.2 d hd]⟩
    simp [isNameHead, isNamePart, Text.isIdentifierTail, h.1,
      Text.isDigit_eq_false_of_isIdentifierHead h.1]

theorem isTypeName_of_assign {rules : Naming.Rules} {schema : Schema} {rootName : Json}
    {names : Naming.Table} (hr : rules.SpellsLegally) (hcase : rules.typeCase ≠ .preserve)
    (hkeywords : keywords ⊆ rules.reserved.words)
    (h : Naming.assign rules schema rootName = .ok names) :
    ∀ id ∈ names.typeNames, IsTypeName id := by
  intro id hid
  have hclaims := Naming.claimsType_of_mem_typeNames h id hid
  refine ⟨isName_of_isPlainIdentifier (hclaims.legal hr hcase), fun hmem => ?_⟩
  exact hclaims.notMem_reserved (hkeywords hmem)

/-- The text of a type is unambiguous.  That holds for all expressions that the mapping makes for
TypeScript: for the rules of the target, and for all others under which types have legal names. -/
theorem renderType_unambiguous :
    (∀ t : TypeExpr, t.Formed .typescript IsTypeName →
      ∃ text, renderType t = .ok text ∧ ∀ e, Reads text e ↔ e = t.erase) ∧
    (∀ t u : TypeExpr, t.Formed .typescript IsTypeName → u.Formed .typescript IsTypeName →
      renderType t = renderType u → t.erase = u.erase) ∧
    ∀ (document : Json) (schema : Schema) (rules : Naming.Rules) (rootName : Json)
      (names : Naming.Table) (graph : ReferenceGraph), document.Distinct →
      Schema.resolve document = .ok schema → Naming.assign rules schema rootName = .ok names →
      (rules = TypeScript.rules ∨ ∀ id ∈ names.typeNames, IsTypeName id) →
      ∃ m, mapSchema { Target.typescript.backend with rules := rules } names schema graph = .ok m ∧
        ∀ t ∈ Declaration.walkTypes m.declarations ++ m.rootType.walk,
          t.Formed .typescript IsTypeName := by
  refine ⟨fun t => reads_iff, fun t u => erase_eq_of_renderType, ?_⟩
  intro document schema rules rootName names graph hdistinct hresolve hassign hrules
  have hsound := Schema.sound_of_resolve hdistinct hresolve
  have hbackend := Target.typescript.complete_backend rules
  obtain ⟨m, h⟩ :=
    Mapping.exists_mapSchema hbackend hsound (Naming.Table.suits_of_assign hassign) graph
  have hnames : ∀ id ∈ names.typeNames, IsTypeName id := by
    rcases hrules with rfl | hnames
    · exact isTypeName_of_assign (Naming.spellsLegally_rules .typescript) (by decide) (by decide)
        hassign
    · exact hnames
  exact ⟨m, h, fun t ht => (Mapping.formed_of_mapSchema hbackend hsound h t ht).imp hnames⟩

/-- Rows of texts that hold a bar and a quote, or no row at all. -/
def rowsType : TypeExpr :=
  .array { kind := .optional, args := [.array (.literal "a | \"b")], mayBeAbsent := true,
           mayBeNull := true }

/-- A document whose items may be null. -/
def rowsDocument : Json := .object [
  ("elements", .object [("elements", .object [("type", .string "string")]),
    ("nullable", .bool true)])]

/-- The nodes of the document. -/
def rowsSchema : Schema where
  definitions := []
  root := .elements ⟨⟨[]⟩, false, none, []⟩
    (.elements ⟨⟨["elements"]⟩, true, none, []⟩
      (.type ⟨⟨["elements", "elements"]⟩, false, none, []⟩ .string))

/-- The names of the schema. -/
def rowsNames : Naming.Table := { root := "Rows", definitions := [], nodes := [] }

theorem renderType_rows :
    rowsType.Formed .typescript IsTypeName ∧
      renderType rowsType = .ok "((\"a | \\\"b\")[] | null)[]" ∧
      (∀ e, Reads "((\"a | \\\"b\")[] | null)[]" e ↔ e = rowsType.erase) ∧
      rowsDocument.Distinct ∧ Schema.resolve rowsDocument = .ok rowsSchema ∧
      Naming.assign TypeScript.rules rowsSchema (.string "rows") = .ok rowsNames ∧
      ∃ m, mapSchema { Target.typescript.backend with rules := TypeScript.rules } rowsNames
          rowsSchema (.ofSchema rowsSchema) = .ok m ∧
        m.rootType.Formed .typescript IsTypeName := by
  have hformed : rowsType.Formed .typescript IsTypeName :=
    .array (.optional (.array (.literal _)) true true)
  have hdistinct : rowsDocument.Distinct := by simp [rowsDocument, Json.keys]
  have hresolve : Schema.resolve rowsDocument = .ok rowsSchema := by with_unfolding_all rfl
  have hassign : Naming.assign TypeScript.rules rowsSchema (.string "rows") = .ok rowsNames := by
    with_unfolding_all rfl
  have htext : renderType rowsType = .ok "((\"a | \\\"b\")[] | null)[]" := by
    with_unfolding_all rfl
  obtain ⟨hreads, -, hrun⟩ := renderType_unambiguous
  obtain ⟨text, htext', htypes⟩ := hreads rowsType hformed
  obtain rfl := Except.ok.inj (htext.symm.trans htext')
  obtain ⟨m, hmap, hall⟩ := hrun rowsDocument rowsSchema TypeScript.rules (.string "rows") rowsNames
    (.ofSchema rowsSchema) hdistinct hresolve hassign (.inl rfl)
  refine ⟨hformed, htext, htypes, hdistinct, hresolve, hassign, m, hmap, ?_⟩
  exact hall _ (List.mem_append_right _ (by rw [TypeExpr.walk_eq]; exact List.mem_cons_self))

end Target.TypeScript

end Typegen
