import Typegen.Proofs.GoImports
import Typegen.Proofs.JavaImports
import Typegen.Proofs.PythonImports

/-!
# Imports and uses

A generated file imports exactly what its code uses (`imports_exactly_used`).  In Go a package is
needed by a type that mentions it or by a union.  In Java a class is used by the words of the one
declaration in a file, and in Python a name is used by the words of some declaration.  There the
descriptions must stay in their comments and documentation strings.  One that gets out may hide what
is imported, or use what is not (`imports_astray`).
-/

namespace Typegen

open Schema (resolve)

namespace Target

/-- Declarations import the packages that they need: two for a union, and one for times where a type
of a field or behind a name mentions them. -/
def Go.ImportsMatch (ds : List Declaration) : Prop :=
  ∀ path, path ∈ Go.imports ds ↔
    (path = "encoding/json" ∨ path = "fmt") ∧ (∃ d ∈ ds, d.isUnion = true) ∨
    path = "time" ∧ ∃ d ∈ ds, ∃ type, Go.WritesType d type ∧ Go.MentionsTime type

/-- A declaration imports the classes that the words of its text stand for. -/
def Java.ImportsMatch (d : Declaration) (text : String) : Prop :=
  ∀ c, c ∈ Java.imports [d] ↔
    ∃ word, .word word ∈ Java.lexis.lexemes text ∧ Java.classOf? word = some c

namespace Python

/-- The text of a declaration has a name among its words. -/
def Mentions (s : Setting) (d : Declaration) (name : String) : Prop :=
  ∃ text, python.renderDeclaration s d = .ok text ∧ .word name ∈ lexis.lexemes text

/-- The import lines of some declarations import the names that their texts mention. -/
def ImportsMatch (s : Setting) (ds : List Declaration) (lines : List String) : Prop :=
  ∀ x ∈ importedNames, (∃ line ∈ lines, x ∈ importedBy line) ↔ ∃ d ∈ ds, Mentions s d x

theorem mem_lexemes_iff {text x : String} (hx : x ∈ importedNames) :
    .word x ∈ lexis.lexemes text ↔ x ∈ denoted imported? (lexis.lexemes text) := by
  rw [mem_denoted]
  constructor
  · exact fun h => ⟨x, h, if_pos hx⟩
  · rintro ⟨name, hname, himported⟩
    unfold imported? at himported
    split at himported
    · cases himported
      exact hname
    · cases himported

section

variable {names : Naming.Table} {ds : List Declaration} {d : Declaration} {x : String}

theorem mentions_iff (hclear : Clear names) (hds : ∀ d ∈ ds, d.Shaped .python names)
    (s : Setting) (h : d.Shaped .python names) (haside : Aside (descriptionLines d))
    (hx : x ∈ importedNames) :
    Mentions { s with declared := Declaration.byName ds } d x ↔
      x ∈ declarationUses (Declaration.byName ds) d := by
  obtain ⟨text, htext, huses⟩ := exists_text hclear hds s h
  rw [← huses haside, ← mem_lexemes_iff hx]
  constructor
  · rintro ⟨text', htext', hword⟩
    obtain rfl := Except.ok.inj (htext.symm.trans htext')
    exact hword
  · exact fun hword => ⟨text, htext, hword⟩

theorem exists_hasMetadata (hclear : Clear names) (hds : ∀ d ∈ ds, d.Shaped .python names) :
    ∀ f ∈ ds.flatMap (·.fields), ∃ b, hasMetadata (Declaration.byName ds) f = .ok b := by
  refine exists_hasMetadata_of_fieldDecoder fun d hd f htype => ?_
  obtain ⟨decoder, hdecoder, -⟩ := exists_fieldDecoder hclear hds ((hds d hd).types _ htype)
  exact ⟨decoder, hdecoder⟩

end

end Python

/-- Files import what their code uses, in Java and Python where no description is read as code. -/
theorem imports_exactly_used {document : Json} {schema : Schema} (hdistinct : document.Distinct)
    (hresolve : resolve document = .ok schema) (rootName : Json) (names : Naming.Table)
    (graph : ReferenceGraph) (s : Setting) :
    (Naming.assign Go.rules schema rootName = .ok names →
      ∃ m, mapSchema go.backend names schema graph = .ok m ∧ Go.ImportsMatch m.declarations ∧
        ∀ d ∈ m.declarations, ∃ text, go.renderDeclaration s d = .ok text) ∧
    (Naming.assign Java.rules schema rootName = .ok names →
      ∃ m, mapSchema java.backend names schema graph = .ok m ∧
        ∀ d ∈ m.declarations, ∃ text, java.renderDeclaration s d = .ok text ∧
          (Java.CommentsHold d → Java.ImportsMatch d text)) ∧
    (Naming.assign Python.rules schema rootName = .ok names →
      ∃ m lines s', s' = { s with declared := Declaration.byName m.declarations } ∧
        mapSchema python.backend names schema graph = .ok m ∧
        Python.imports m.declarations = .ok lines ∧
        (∀ d ∈ m.declarations, ∃ text, python.renderDeclaration s' d = .ok text) ∧
        ((∀ d ∈ m.declarations, Python.Aside (Python.descriptionLines d)) →
          Python.ImportsMatch s' m.declarations lines)) := by
  refine ⟨fun hassign => ?_, fun hassign => ?_, fun hassign => ?_⟩
  · have hplain := Naming.Table.plain_of_assign (Naming.spellsLegally_rules .go) (by decide)
      (by decide) (by decide) hassign
    obtain ⟨m, hm, hshaped⟩ := Mapping.exists_shaped hdistinct hresolve hassign .go graph
    exact ⟨m, hm, Go.mem_imports_iff hplain hshaped, fun d hd =>
      Go.exists_text hplain (hshaped d hd) s⟩
  · have hplain := Naming.Table.plain_of_assign (Naming.spellsLegally_rules .java) (by decide)
      (by decide) (by decide) hassign
    have hclear := Java.clear_of_assign hplain hassign
    obtain ⟨m, hm, hshaped⟩ := Mapping.exists_shaped hdistinct hresolve hassign .java graph
    refine ⟨m, hm, fun d hd => ?_⟩
    obtain ⟨text, htext, hlexemes⟩ := Java.exists_text hplain (hshaped d hd) s
    refine ⟨text, htext, fun hcomments c => ?_⟩
    rw [Java.mem_imports_iff, ← Java.mem_denoted_declaration hplain hclear (hshaped d hd),
      ← hlexemes hcomments, mem_denoted]
  · have hclear := Python.clear_of_assign hassign
    obtain ⟨m, hm, hshaped⟩ := Mapping.exists_shaped hdistinct hresolve hassign .python graph
    obtain ⟨lines, hlines, himports⟩ :=
      Python.exists_imports (Python.exists_hasMetadata hclear hshaped)
    have hunion : ∀ d ∈ m.declarations, d.isUnion = true →
        ∃ d' ∈ m.declarations, d'.isStruct = true := fun d hd hunion =>
      Mapping.exists_isStruct_of_isUnion (python.complete_backend Python.rules)
        (Schema.sound_of_resolve hdistinct hresolve) (Schema.filled_of_resolve hdistinct hresolve)
        (Naming.Table.suits_of_assign hassign) hm hd hunion
    refine ⟨m, lines, _, rfl, hm, hlines, fun d hd => ?_, fun haside x hx => ?_⟩
    · obtain ⟨text, htext, -⟩ := Python.exists_text hclear hshaped s (hshaped d hd)
      exact ⟨text, htext⟩
    · rw [← List.mem_flatMap, ← Python.importedIn, himports x hx,
        ← Python.exists_mem_declarationUses_iff hclear hshaped hunion]
      refine exists_congr fun d => and_congr_right fun hd => ?_
      exact (Python.mentions_iff hclear hshaped s (hshaped d hd) (haside d hd) hx).symm

/-- Descriptions of the root, of a type and of its field: plain ones, and ones that get astray. -/
def descriptions : Bool → String × String × String
  | false => ("root", "type", "field")
  | true => ("; pass #", "type\\", "\\u002a/ List<String> x; /*")

/-- What a description is written as. -/
def describe (s : String) : String × Json := ("metadata", .object [("description", .string s)])

/-- A document with descriptions. -/
def describedDocument (astray : Bool) : Json :=
  .object [
    describe (descriptions astray).1,
    ("definitions", .object [("a", .object [
      describe (descriptions astray).2.1,
      ("properties", .object [("v", .object [describe (descriptions astray).2.2])])])]),
    ("properties", .object [])]

/-- The nodes of the document. -/
def describedSchema (astray : Bool) : Schema where
  definitions := [("a", .properties
    ⟨⟨["definitions", "a"]⟩, false, some "a", [("description", .string (descriptions astray).2.1)]⟩
    [("v", .empty ⟨⟨["definitions", "a", "properties", "v"]⟩, false, none,
      [("description", .string (descriptions astray).2.2)]⟩)] [] false)]
  root := .properties ⟨⟨[]⟩, false, none, [("description", .string (descriptions astray).1)]⟩
    [] [] false

/-- The names of the schema, with an identifier for its key. -/
def describedNames (id : String) : Naming.Table where
  root := "Root"
  definitions := [("a", "A")]
  nodes := [(⟨["definitions", "a"]⟩, .struct "A" [⟨id, "v"⟩]), (⟨[]⟩, .struct "Root" [])]

/-- The declarations of the schema, for the type of any value. -/
def describedDeclarations (any : String) (astray : Bool) : List Declaration :=
  [.struct ⟨"A", "#/definitions/a", some (descriptions astray).2.1⟩
      [{ name := "v", wire := "v", type := .any any, description := some (descriptions astray).2.2 }]
      none false,
    .struct ⟨"Root", "#", some (descriptions astray).1⟩ [] none false]

theorem resolve_described (astray : Bool) :
    resolve (describedDocument astray) = .ok (describedSchema astray) := by
  cases astray <;> with_unfolding_all rfl

theorem assign_described (astray : Bool) :
    Naming.assign Go.rules (describedSchema astray) (.string "root") = .ok (describedNames "V") ∧
    Naming.assign Java.rules (describedSchema astray) (.string "root") = .ok (describedNames "v") ∧
    Naming.assign Python.rules (describedSchema astray) (.string "root") =
      .ok (describedNames "v") := by
  refine ⟨?_, ?_, ?_⟩ <;> cases astray <;> with_unfolding_all rfl

theorem mapSchema_described (astray : Bool) :
    (∃ m, mapSchema java.backend (describedNames "v") (describedSchema astray)
      (.ofSchema (describedSchema astray)) = .ok m ∧
      m.declarations = describedDeclarations "Object" astray) ∧
    ∃ m, mapSchema python.backend (describedNames "v") (describedSchema astray)
      (.ofSchema (describedSchema astray)) = .ok m ∧
      m.declarations = describedDeclarations "Any" astray := by
  refine ⟨⟨⟨"java", .named "Root" none, _, []⟩, ?_, rfl⟩,
    ⟨"python", .named "Root" none, _, []⟩, ?_, rfl⟩ <;>
  cases astray <;> with_unfolding_all rfl

theorem imports_exactly_used_described :
    (describedDocument false).Distinct ∧
      resolve (describedDocument false) = .ok (describedSchema false) ∧
      (∃ m, mapSchema go.backend (describedNames "V") (describedSchema false)
        (.ofSchema (describedSchema false)) = .ok m ∧ Go.ImportsMatch m.declarations) ∧
      (∀ d ∈ describedDeclarations "Object" false, ∃ text,
        java.renderDeclaration { rootName := .null } d = .ok text ∧ Java.ImportsMatch d text) ∧
      ∃ lines s, Python.imports (describedDeclarations "Any" false) = .ok lines ∧
        Python.ImportsMatch s (describedDeclarations "Any" false) lines := by
  have hdistinct : (describedDocument false).Distinct := by
    simp [describedDocument, describe, Json.keys]
  obtain ⟨hgo, hjava, hpython⟩ := assign_described false
  obtain ⟨⟨m, hm, hdeclarations⟩, m', hm', hdeclarations'⟩ := mapSchema_described false
  have hused := fun names => imports_exactly_used hdistinct (resolve_described false)
    (.string "root") names (.ofSchema (describedSchema false)) { rootName := .null }
  obtain ⟨g, hg, hmatch, -⟩ := (hused _).1 hgo
  obtain ⟨_, hj, hmatch'⟩ := (hused _).2.1 hjava
  obtain ⟨_, lines, s, -, hp, hlines, -, hmatch''⟩ := (hused _).2.2 hpython
  obtain rfl := Except.ok.inj (hm.symm.trans hj)
  obtain rfl := Except.ok.inj (hm'.symm.trans hp)
  rw [hdeclarations] at hmatch'
  rw [hdeclarations'] at hlines hmatch''
  refine ⟨hdistinct, resolve_described false, ⟨g, hg, hmatch⟩, fun d hd => ?_, lines, s, hlines,
    hmatch'' fun d hd => ?_⟩
  · obtain ⟨text, htext, himports⟩ := hmatch' d hd
    refine ⟨text, htext, himports ?_⟩
    apply Java.commentsHold_of_lacks
    · rcases List.mem_pair.1 hd with rfl | rfl <;> rintro _ ⟨⟩ <;> decide
    · rcases List.mem_pair.1 hd with rfl | rfl
      · rintro _ (_ | ⟨_, ⟨⟩⟩) _ ⟨⟩
        decide
      · rintro _ ⟨⟩
  · rcases List.mem_pair.1 hd with rfl | rfl
    · exact ⟨[.text "type"], by with_unfolding_all rfl, by simp⟩
    · exact ⟨[.text "root"], by with_unfolding_all rfl, by simp⟩

/-- Descriptions that get astray.  In Python a name is imported that no declaration mentions, and in
Java a class is used that is not imported. -/
theorem imports_astray :
    resolve (describedDocument true) = .ok (describedSchema true) ∧
      (∃ m, mapSchema python.backend (describedNames "v") (describedSchema true)
          (.ofSchema (describedSchema true)) = .ok m ∧
        ∃ lines, Python.imports m.declarations = .ok lines ∧
          (∃ line ∈ lines, "Any" ∈ Python.importedBy line) ∧
          ∀ d ∈ m.declarations, ¬ Python.Mentions
            { rootName := .null, declared := Declaration.byName m.declarations } d "Any") ∧
      ∃ m, mapSchema java.backend (describedNames "v") (describedSchema true)
          (.ofSchema (describedSchema true)) = .ok m ∧
        ∃ d ∈ m.declarations, ∃ text, java.renderDeclaration { rootName := .null } d = .ok text ∧
          .word "List" ∈ Java.lexis.lexemes text ∧ Java.classOf? "List" = some "java.util.List" ∧
          "java.util.List" ∉ Java.imports [d] := by
  obtain ⟨⟨m, hm, hdeclarations⟩, m', hm', hdeclarations'⟩ := mapSchema_described true
  refine ⟨resolve_described true, ⟨m', hm', ?_⟩, m, hm, ?_⟩
  · rw [hdeclarations']
    refine ⟨_, by with_unfolding_all rfl, by decide, fun d hd => ?_⟩
    rintro ⟨text, htext, hword⟩
    rcases List.mem_pair.1 hd with rfl | rfl
    · cases htext
      exact absurd hword (by decide)
    · cases htext
      exact absurd hword (by decide)
  · have hfield : Java.lexis.Line "    /** \\u002a/ List<String> x; /* */"
        [.word "List", .mark '<', .word "String", .mark '>', .word "x", .mark ';'] :=
      Lexis.line_ofList rfl rfl
    have hlines : Java.lexis.Lines (blockComment (some "type\\") ++ ["public class A \x7b",
        "    /** \\u002a/ List<String> x; /* */", "    @JsonProperty(\"v\")",
        "    public Object v;", "\x7d"]) _ :=
      (Lexis.lines_blockComment rfl (by rintro _ ⟨⟩ -; decide)).append <|
        .cons (Lexis.line_ofList rfl rfl) <| .cons hfield <| .cons (Lexis.line_ofList rfl rfl) <|
          .cons (Lexis.line_ofList rfl rfl) (Lexis.line_ofList rfl rfl).lines
    rw [hdeclarations]
    refine ⟨_, List.mem_cons_self, _, rfl, ?_, rfl, ?_⟩
    · exact (Lexis.lexemes_layout hlines).symm ▸ by simp
    · rw [Java.mem_imports_iff]
      decide

end Target

end Typegen
