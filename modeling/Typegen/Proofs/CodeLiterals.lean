import Typegen.Proofs.JavaCode
import Typegen.Proofs.KeptKeys
import Typegen.Proofs.MemberKeys
import Typegen.Target.Render

/-!
# Strings in generated code

In TypeScript and Java, strings are made of UTF-16 units, and every string literal of the generated
code is read as the units of the string that was quoted (`strings_survive`): the values of an
enumeration, the key and the values of a tag, and the keys of data.  A key of an interface that is an
identifier is written as it is, and is read as the name of a member.  There a line break at its end is
lost, and in Java a description may bring literals of its own (`strings_astray`).
-/

namespace Typegen

open Schema (resolve)

namespace Target

open Text (quote)

/-- The values of the literals among some lexemes, for a way to read a literal. -/
def literalValues (read? : String → Option (List Nat)) (ts : List Lexeme) :
    List (Option (List Nat)) :=
  (literals ts).map fun raw => read? (requoted raw)

theorem literalValues_of_literals {read? : String → Option (List Nat)}
    (hread : ∀ s, read? (quote s) = some (utf16 s)) {ts : List Lexeme} {strings : List String}
    (h : literals ts = strings.map quotedBody) :
    literalValues read? ts = strings.map fun s => some (utf16 s) := by
  rw [literalValues, h, List.map_map]
  apply List.map_congr_left
  intro s _
  rw [Function.comp_apply, requoted_quotedBody, hread]

namespace Java

open Lexeme (word mark quoted)

/-- The strings that are quoted in a declaration. -/
def strings : Declaration → List String
  | .struct _ fields base _ =>
    (nonEmpty base).toList.flatMap (fun _ => ((fields.find? (·.isTag)).bind (·.tagValue)).toList) ++
      (dataFields fields).map (·.wire)
  | .enum _ members => members.map Prod.snd
  | .union _ _ tagWire variants => tagWire :: variants.map Prod.fst
  | .synonym _ _ => []

theorem literals_lexemes (t : TypeExpr) : literals (t.lexemes lexemeStyle) = [] := by
  rw [literals, List.filterMap_eq_nil_iff]
  intro x hx
  obtain ⟨e, -, he⟩ := (TypeExpr.mem_lexemes t).1 hx
  have hown : literals (lexemeStyle.own e) = [] := by
    unfold LexemeStyle.own
    cases e.kind <;> rfl
  exact List.filterMap_eq_nil_iff.1 hown x he

theorem literals_fieldLexemes (f : Field) : literals (fieldLexemes f) = [quotedBody f.wire] := by
  have htype : literals (fieldTypeLexemes f) = [] := by
    unfold fieldTypeLexemes
    split
    · rfl
    · exact literals_lexemes f.type
  unfold fieldLexemes
  rw [literals_append, literals_append, literals_append, htype]
  cases f.mayBeAbsent <;> rfl

theorem literals_typeNameLexemes (fields : List Field) (base : Option String) :
    literals (typeNameLexemes fields base) = ((nonEmpty base).toList.flatMap fun _ =>
      ((fields.find? (·.isTag)).bind (·.tagValue)).toList).map quotedBody := by
  unfold typeNameLexemes
  cases nonEmpty base with
  | none => rfl
  | some b => cases (fields.find? (·.isTag)).bind (·.tagValue) <;> rfl

theorem literals_superclassLexemes (base : Option String) :
    literals (superclassLexemes base) = [] := by
  unfold superclassLexemes
  cases nonEmpty base <;> rfl

theorem literals_memberLexemes (members : List (String × String)) :
    literals (memberLexemes members) = members.map fun m => quotedBody m.2 := by
  fun_induction memberLexemes members with
  | case1 | case2 => rfl
  | case3 name value rest _ ih =>
    rw [literals_append, ih]
    rfl

theorem literals_variants (variants : List (String × String)) :
    literals ((variants.map variantLexemes).intersperse [mark ',']).flatten =
      variants.map fun v => quotedBody v.1 := by
  rw [literals, filterMap_intersperse rfl, ← List.flatMap_def]
  exact (literals_flatMap variants variantLexemes).trans List.map_eq_flatMap.symm

theorem literals_declarationLexemes (d : Declaration) :
    literals (declarationLexemes d) = (strings d).map quotedBody := by
  cases d with
  | struct h fields base additional =>
    have hfields : literals ((dataFields fields).flatMap fieldLexemes) =
        (dataFields fields).map fun f => quotedBody f.wire := by
      simp only [literals_flatMap, literals_fieldLexemes, List.map_eq_flatMap]
    have hignore : literals (if additional then
        [annotated "JsonIgnoreProperties", mark '(', word "ignoreUnknown", mark '=', word "true",
          mark ')'] else []) = [] := by
      cases additional <;> rfl
    simp [declarationLexemes, classLexemes, hignore, hfields, literals_typeNameLexemes,
      literals_superclassLexemes, strings]
  | enum h members =>
    simp [declarationLexemes, literals_memberLexemes, strings]
  | union h tagName tagWire variants =>
    simp [declarationLexemes, unionLexemes, typeInfoLexemes, annotated, literals_variants, strings]
  | synonym h target =>
    simp [declarationLexemes, aliasLexemes, annotated, literals_lexemes, strings]

end Java

/-- The key of every member of an interface is read as the key of the data. -/
def TypeScript.KeysRead (d : Declaration) (text : String) : Prop :=
  ∀ h fields base additional, d = .struct h fields base additional →
    ∃ blocks, text = layout (blockComment h.description ++
        ["export interface " ++ h.name ++ " \x7b"] ++ blocks.flatten ++ ["\x7d"]) ∧
      List.Forall₂ (fun f block => f.name = f.wire ∧ TypeScript.KeyRead f block) fields blocks

/-- Strings survive.  Of every string a literal is made of printable characters, without a quote that
is not escaped, whose value is the string in UTF-16.  In the declarations of a schema, with names by
the rules of the target or by others that give plain identifiers, the values of the literals are the
quoted strings in order.  In TypeScript the rules have to keep keys, and those that are not quoted are
read as well; in Java no description may be read as code. -/
theorem strings_survive (setting : Setting) :
    (∀ s : String, ∃ body : List Char, (quote s).toList = '"' :: (body ++ ['"']) ∧
      (∀ c ∈ body, IsPrintable c) ∧ quotesEscaped body = true ∧
      TypeScript.literal? (quote s) = some (utf16 s) ∧ Java.literal? (quote s) = some (utf16 s) ∧
      ofUtf16 (utf16 s) = s.toList ∧ TypeScript.renderType (.literal s) = .ok (quote s)) ∧
    ∀ (document : Json) (schema : Schema) (rules : Naming.Rules) (rootName : Json)
      (names : Naming.Table) (graph : ReferenceGraph), document.Distinct →
      resolve document = .ok schema → Naming.assign rules schema rootName = .ok names →
      (rules = TypeScript.rules ∨ rules.KeepsKeys ∧
          (∀ id ∈ names.typeNames, Text.isPlainIdentifier id.toList = true) →
        ∃ m, mapSchema { typescript.backend with rules := rules } names schema graph = .ok m ∧
          ∀ d ∈ m.declarations, ∃ text, typescript.renderDeclaration setting d = .ok text ∧
            literalValues TypeScript.literal? (TypeScript.lexis.lexemes text) =
              (TypeScript.strings d).map (fun s => some (utf16 s)) ∧
            TypeScript.KeysRead d text) ∧
      (rules = Java.rules ∨ names.Plain →
        ∃ m, mapSchema { java.backend with rules := rules } names schema graph = .ok m ∧
          ∀ d ∈ m.declarations, ∃ text, java.renderDeclaration setting d = .ok text ∧
            (Java.CommentsHold d → literalValues Java.literal? (Java.lexis.lexemes text) =
              (Java.strings d).map fun s => some (utf16 s))) := by
  refine ⟨fun s => ?_, ?_⟩
  · refine ⟨s.toList.flatMap Text.quotedChar, by simp [quote, Text.quotedChars], fun c hc => ?_,
      quotesEscaped_quoted s.toList, TypeScript.literal?_quoted s, Java.literal?_quoted s,
      ofUtf16_utf16 s, rfl⟩
    obtain ⟨d, -, hc⟩ := List.mem_flatMap.1 hc
    exact isPrintable_of_mem_quotedChar hc
  · intro document schema rules rootName names graph hdistinct hresolve hassign
    have hsound := Schema.sound_of_resolve hdistinct hresolve
    constructor
    · intro hrules
      obtain ⟨hkeeps, htypes⟩ : rules.KeepsKeys ∧
          ∀ id ∈ names.typeNames, Text.isPlainIdentifier id.toList = true := by
        rcases hrules with rfl | hrules
        · exact ⟨TypeScript.keepsKeys_rules,
            Naming.legal_typeNames (Naming.spellsLegally_rules .typescript) (by decide) hassign⟩
        · exact hrules
      have hkeys : ∀ key id, names.NamesKey key id → id = key := by
        rintro key _ ⟨path, f, hf, rfl⟩
        exact Naming.identifier_of_fieldName hkeeps hsound hassign hf
      obtain ⟨m, hm, hshaped⟩ :=
        Mapping.exists_shaped hdistinct hresolve hassign .typescript graph
      refine ⟨m, hm, fun d hd => ?_⟩
      obtain ⟨text, htext, hliterals⟩ :=
        TypeScript.exists_text htypes hkeys (hshaped d hd) setting
      refine ⟨text, htext, literalValues_of_literals TypeScript.literal?_quoted hliterals, ?_⟩
      rintro h fields base additional rfl
      obtain ⟨blocks, hlayout, hblocks⟩ := TypeScript.exists_members htext
      have hnames := TypeScript.name_eq_wire hkeys (hshaped _ hd)
      exact ⟨blocks, hlayout, (List.forall₂_and_left _ _).2 ⟨hnames, hblocks⟩⟩
    · intro hrules
      have hplain : names.Plain := by
        rcases hrules with rfl | hplain
        · exact Naming.Table.plain_of_assign (Naming.spellsLegally_rules .java) (by decide)
            (by decide) (by decide) hassign
        · exact hplain
      obtain ⟨m, hm, hshaped⟩ := Mapping.exists_shaped hdistinct hresolve hassign .java graph
      refine ⟨m, hm, fun d hd => ?_⟩
      obtain ⟨text, htext, hlexemes⟩ := Java.exists_text hplain (hshaped d hd) setting
      refine ⟨text, htext, fun hcomments => ?_⟩
      rw [hlexemes hcomments]
      exact literalValues_of_literals Java.literal?_quoted (Java.literals_declarationLexemes d)

/-- A document with a key that ends in a line break and a value with a quote and a backslash. -/
def noteDocument : Json := .object [
  ("properties", .object [("a\n", .object [("enum", .array [.string "\"\\u"])])])]

/-- The nodes of the document. -/
def noteSchema : Schema where
  definitions := []
  root := .properties ⟨⟨[]⟩, false, none, []⟩
    [("a\n", .enum ⟨⟨["properties", "a\n"]⟩, false, none, []⟩ ["\"\\u"])] [] false

/-- The names of the schema, with an identifier for its key. -/
def noteNames (id : String) : Naming.Table where
  root := "Note"
  definitions := []
  nodes := [(⟨[]⟩, .struct "Note" [⟨id, "a\n"⟩]),
    (⟨["properties", "a\n"]⟩, .enum "NoteA" [("\"\\u", "U")])]

theorem strings_survive_note :
    noteDocument.Distinct ∧ resolve noteDocument = .ok noteSchema ∧
      Naming.assign TypeScript.rules noteSchema (.string "note") = .ok (noteNames "a\n") ∧
      TypeScript.literal? (quote "\"\\u") = some [0x22, 0x5c, 0x75] ∧
      ∃ m, mapSchema { typescript.backend with rules := TypeScript.rules } (noteNames "a\n")
          noteSchema (.ofSchema noteSchema) = .ok m ∧
        ∀ d ∈ m.declarations, ∃ text, typescript.renderDeclaration { rootName := .null } d =
            .ok text ∧
          literalValues TypeScript.literal? (TypeScript.lexis.lexemes text) =
            (TypeScript.strings d).map (fun s => some (utf16 s)) ∧ TypeScript.KeysRead d text := by
  have hdistinct : noteDocument.Distinct := by simp [noteDocument, Json.keys]
  have hresolve : resolve noteDocument = .ok noteSchema := by with_unfolding_all rfl
  have hassign : Naming.assign TypeScript.rules noteSchema (.string "note") =
      .ok (noteNames "a\n") := by
    with_unfolding_all rfl
  obtain ⟨hquoted, hrun⟩ := strings_survive { rootName := .null }
  obtain ⟨body, -, -, -, hvalue, -⟩ := hquoted "\"\\u"
  exact ⟨hdistinct, hresolve, hassign, hvalue,
    (hrun noteDocument noteSchema TypeScript.rules (.string "note") (noteNames "a\n")
      (.ofSchema noteSchema) hdistinct hresolve hassign).1 (.inl rfl)⟩

/-- A type with one field. -/
def noteStruct (key any : String) (description : Option String) : Declaration :=
  .struct { name := "Note" }
    [{ name := key, wire := key, type := .any any, description := description }] none false

set_option maxRecDepth 2000 in
/-- Strings that get astray.  A line break at the end of a key is lost in TypeScript, and in Java a
description brings a literal that nothing quotes. -/
theorem strings_astray :
    (∃ text line rest,
      typescript.renderDeclaration { rootName := .null } (noteStruct "a\n" "any" none) = .ok text ∧
      text = "export interface Note \x7b\n" ++ line ++ "\n\x7d" ∧
      TypeScript.memberHead? line.toList = some ⟨utf16 "a", false, rest⟩ ∧
      utf16 "a" ≠ utf16 "a\n") ∧
    ∃ text, java.renderDeclaration { rootName := .null }
        (noteStruct "v" "Object" (some "\\u002a/ @X(\"x\") /*")) = .ok text ∧
      literalValues Java.literal? (Java.lexis.lexemes text) = [some (utf16 "x"), some (utf16 "v")] := by
  refine ⟨⟨_, "  a\n: any;", _, rfl, by decide, by with_unfolding_all rfl, by decide⟩, _, rfl, ?_⟩
  apply @literalValues_of_literals _ Java.literal?_quoted _ ["x", "v"]
  decide

end Target

end Typegen
