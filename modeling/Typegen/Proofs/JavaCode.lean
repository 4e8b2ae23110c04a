import Typegen.Proofs.Comments
import Typegen.Proofs.Shapes
import Typegen.Proofs.TypeLexemes
import Typegen.Target.Render

/-!
# Java declarations as lexemes

`declarationLexemes` gives the lexemes of a declaration, and `exists_text` shows that they are those
of the text that is written for it if its comments hold their descriptions (`CommentsHold`).  They do
unless a description begins an escape of a unit, which is read also in comments.
-/

namespace Typegen.Target.Java

open Lexeme (word mark quoted)
open Lexis (shut_ofList line_ofList reads_name reads_quote)

/-- The lexemes.  The sign of an annotation belongs to its name, and escapes of units are read first. -/
def lexis : Lexis := { signs := ['@'], slashComments := true, earlyEscapes := true }

/-- An annotation. -/
def annotated (name : String) : Lexeme := word ("@" ++ name)

/-! ## Pieces -/

theorem shut_paren : lexis.Shut ")" [mark ')'] := shut_ofList rfl rfl

theorem shut_brace : lexis.Shut " \x7b" [mark '\x7b'] := shut_ofList rfl rfl

theorem shut_end : lexis.Shut "\x7d" [mark '\x7d'] := shut_ofList rfl rfl

theorem shut_comma : lexis.Shut "," [mark ','] := shut_ofList rfl rfl

theorem shut_class : lexis.Shut "public class " [word "public", word "class"] :=
  shut_ofList rfl rfl

theorem shut_property : lexis.Shut "    @JsonProperty(" [annotated "JsonProperty", mark '('] :=
  shut_ofList rfl rfl

/-! ## Types -/

/-- The lexemes in front of what a type expression holds. -/
def typeFront : TypeKind → String → List Lexeme
  | .literal, _ => [word "String"]
  | .array, _ => [word "List", mark '<']
  | .map, _ => [word "Map", mark '<', word "String", mark ',']
  | .optional, _ => []
  | _, name => [word name]

/-- The lexemes behind what a type expression holds. -/
def typeBack : TypeKind → List Lexeme
  | .array => [mark '>']
  | .map => [mark '>']
  | _ => []

/-- The lexemes around what type expressions hold. -/
def lexemeStyle : LexemeStyle := ⟨typeFront, typeBack⟩

theorem spells_lexemeStyle : lexemeStyle.Spells lexis style where
  any _ := ⟨rfl, rfl⟩
  primitive _ := ⟨rfl, rfl⟩
  named _ := ⟨rfl, rfl⟩
  literal _ := by
    have hname : lexis.Reads "String" [word "String"] := reads_name (by decide)
    exact ⟨hname, rfl⟩
  array h := by
    have hopen : lexis.Shut "List<" [word "List", mark '<'] := shut_ofList rfl rfl
    have hclose : lexis.Shut ">" [mark '>'] := shut_ofList rfl rfl
    exact ((hopen.append_reads h).append_shut hclose).reads
  map h := by
    have hopen : lexis.Shut "Map<String, " [word "Map", mark '<', word "String", mark ','] :=
      shut_ofList rfl rfl
    have hclose : lexis.Shut ">" [mark '>'] := shut_ofList rfl rfl
    exact ((hopen.append_reads h).append_shut hclose).reads
  optional _ _ h := h.of_eq (by simp [lexemeStyle, typeFront, typeBack])

theorem isPlainIdentifier_spelling (p : Schema.Primitive) :
    Text.isPlainIdentifier (Target.java.spelling p).toList = true := by
  cases p <;> decide

theorem isPlainIdentifier_unboxed (p : Schema.Primitive) :
    Text.isPlainIdentifier (unboxed (Target.java.spelling p)).toList = true := by
  cases p <;> decide

/-- The lexemes of the type of a field. -/
def fieldTypeLexemes (f : Field) : List Lexeme :=
  if f.type.kind = .primitive then [word (unboxed f.type.name)] else f.type.lexemes lexemeStyle

/-! ## Declarations -/

/-- The lexemes of a field. -/
def fieldLexemes (f : Field) : List Lexeme :=
  (if f.mayBeAbsent then
    [annotated "JsonInclude", mark '(', word "JsonInclude", mark '.', word "Include",
      mark '.', word "NON_NULL", mark ')']
  else []) ++
  [annotated "JsonProperty", mark '(', quoted f.wire, mark ')', word "public"] ++
    fieldTypeLexemes f ++ [word f.name, mark ';']

/-- The lexemes of the annotation with a tag value. -/
def typeNameLexemes (fields : List Field) (base : Option String) : List Lexeme :=
  match nonEmpty base, (fields.find? (·.isTag)).bind (·.tagValue) with
  | some _, some value => [annotated "JsonTypeName", mark '(', quoted value, mark ')']
  | _, _ => []

/-- The lexemes that name a superclass. -/
def superclassLexemes (base : Option String) : List Lexeme :=
  match nonEmpty base with
  | some b => [word "extends", word b]
  | none => []

/-- The lexemes of a class with fields. -/
def classLexemes (name : String) (fields : List Field) (base : Option String) (additional : Bool) :
    List Lexeme :=
  (if additional then
    [annotated "JsonIgnoreProperties", mark '(', word "ignoreUnknown", mark '=', word "true",
      mark ')']
  else []) ++
  typeNameLexemes fields base ++ [word "public", word "class", word name] ++
  superclassLexemes base ++ [mark '\x7b'] ++ (dataFields fields).flatMap fieldLexemes ++
  [mark '\x7d']

/-- The lexemes of the members of an enumeration. -/
def memberLexemes : List (String × String) → List Lexeme
  | [] => []
  | [(name, value)] =>
    [annotated "JsonProperty", mark '(', quoted value, mark ')', word name]
  | (name, value) :: rest =>
    [annotated "JsonProperty", mark '(', quoted value, mark ')', word name, mark ','] ++
      memberLexemes rest

/-- The lexemes of a branch of a union. -/
def variantLexemes (v : String × String) : List Lexeme :=
  [annotated "JsonSubTypes", mark '.', word "Type", mark '(', word "name", mark '=',
    quoted v.1, mark ',', word "value", mark '=', word v.2, mark '.', word "class", mark ')']

/-- The lexemes in front of the key of a tag. -/
def typeInfoLexemes : List Lexeme :=
  [annotated "JsonTypeInfo", mark '(', word "use", mark '=', word "JsonTypeInfo", mark '.',
    word "Id", mark '.', word "NAME", mark ',', word "include", mark '=',
    word "JsonTypeInfo", mark '.', word "As", mark '.', word "PROPERTY", mark ',',
    word "property", mark '=']

/-- The lexemes of the class of a union. -/
def unionLexemes (name tagWire : String) (variants : List (String × String)) : List Lexeme :=
  typeInfoLexemes ++
  [quoted tagWire, mark ')', annotated "JsonSubTypes", mark '(', mark '\x7b'] ++
  ((variants.map variantLexemes).intersperse [mark ',']).flatten ++
  [mark '\x7d', mark ')', word "public", word "abstract", word "class", word name,
    mark '\x7b', mark '\x7d']

/-- The lexemes of a class around one value. -/
def aliasLexemes (name : String) (type : List Lexeme) : List Lexeme :=
  [word "public", word "class", word name, mark '\x7b', annotated "JsonValue",
    word "public"] ++ type ++
  [word "value", mark ';', word "public", word name, mark '(', mark ')', mark '\x7b',
    mark '\x7d', annotated "JsonCreator", word "public", word name, mark '('] ++ type ++
  [word "value", mark ')', mark '\x7b', word "this", mark '.', word "value", mark '=',
    word "value", mark ';', mark '\x7d', mark '\x7d']

/-- The lexemes of a declaration. -/
def declarationLexemes : Declaration → List Lexeme
  | .struct h fields base additional => classLexemes h.name fields base additional
  | .enum h members =>
    [word "public", word "enum", word h.name, mark '\x7b'] ++ memberLexemes members ++
      [mark '\x7d']
  | .union h _ tagWire variants => unionLexemes h.name tagWire variants
  | .synonym h target => aliasLexemes h.name (target.lexemes lexemeStyle)

/-! ## Lines -/

/-- No description in the comments of a declaration is read as code. -/
structure CommentsHold (d : Declaration) : Prop where
  main : lexis.Lines (blockComment d.description) []
  field : ∀ f ∈ dataFields d.fields, lexis.Lines (shortBlockComment "    " f.description) []

/-- Comments hold descriptions without escapes of units. -/
theorem commentsHold_of_lacks {d : Declaration}
    (h : ∀ s ∈ d.description, Text.Lacks '\\' 'u' s.toList)
    (hfields : ∀ f ∈ d.fields, ∀ s ∈ f.description, Text.Lacks '\\' 'u' s.toList) :
    CommentsHold d :=
  ⟨Lexis.lines_blockComment rfl fun s hs _ => h s hs, fun f hf =>
    Lexis.lines_shortBlockComment rfl (fun s hs _ => hfields f (List.mem_of_mem_filter hf) s hs)
      (shut_ofList rfl rfl)⟩

section

variable {names : Naming.Table}

theorem reads_renderType (hplain : names.Plain) {t : TypeExpr}
    (h : t.Formed .java (· ∈ names.typeNames)) :
    ∃ text, renderType t = .ok text ∧ lexis.Reads text (t.lexemes lexemeStyle) :=
  TypeExpr.exists_reads_spell spells_lexemeStyle h (by decide) isPlainIdentifier_spelling
    hplain.types

theorem reads_fieldType (hplain : names.Plain) {f : Field} (h : f.Shaped .java names) :
    ∃ text, fieldType f = .ok text ∧ lexis.Reads text (fieldTypeLexemes f) := by
  by_cases hkind : f.type.kind = .primitive
  · have htype := h.type
    cases hf : f.type with
    | mk kind name args absent null definition byReference notes =>
      rw [hf] at htype hkind
      subst hkind
      cases htype
      refine ⟨_, by rw [fieldType, hf]; exact if_pos rfl, ?_⟩
      rw [fieldTypeLexemes, hf]
      exact reads_name (isPlainIdentifier_unboxed _)
  · rw [fieldType, fieldTypeLexemes, if_neg hkind, if_neg hkind]
    exact reads_renderType hplain h.type

theorem exists_fieldLines (hplain : names.Plain) {f : Field} (h : f.Shaped .java names) :
    ∃ lines, fieldLines f = .ok lines ∧
      (lexis.Lines (shortBlockComment "    " f.description) [] →
        lexis.Lines lines (fieldLexemes f)) := by
  obtain ⟨type, htype, hreads⟩ := reads_fieldType hplain h
  refine ⟨_, bind_eq_ok.2 ⟨type, htype, rfl⟩, fun hcomment => ?_⟩
  have hinclude : lexis.Shut "    @JsonInclude(JsonInclude.Include.NON_NULL)"
      [annotated "JsonInclude", mark '(', word "JsonInclude", mark '.', word "Include",
        mark '.', word "NON_NULL", mark ')'] := shut_ofList rfl rfl
  have hpublic : lexis.Shut "    public " [word "public"] := shut_ofList rfl rfl
  have hspace : lexis.Shut " " [] := shut_ofList rfl rfl
  have hend : lexis.Shut ";" [mark ';'] := shut_ofList rfl rfl
  have hkey := shut_property.enclose (reads_quote f.wire) shut_paren
  have hfield := (hpublic.enclose hreads hspace).enclose
    (reads_name (hplain.fields _ h.name.mem_fieldNames)) hend
  refine ((hcomment.append (Lexis.lines_if hinclude.line.lines)).append
    (.cons hkey.line hfield.line.lines)).of_eq ?_
  simp [fieldLexemes, Lexeme.quoted, quotedBody]

theorem exists_typeNameLines {fields : List Field} {base : Option String}
    (htag : ∀ b ∈ base, ∃ tag value, fields.find? (·.isTag) = some tag ∧ tag.tagValue = some value) :
    ∃ lines, typeNameLines fields base = .ok lines ∧
      lexis.Lines lines (typeNameLexemes fields base) := by
  unfold typeNameLines typeNameLexemes
  cases hbase : nonEmpty base with
  | none => exact ⟨[], rfl, .nil⟩
  | some b =>
    obtain ⟨b', rfl⟩ : ∃ b', base = some b' := by
      cases base with
      | none => cases hbase
      | some b' => exact ⟨b', rfl⟩
    obtain ⟨tag, value, hfind, hvalue⟩ := htag b' rfl
    have hopen : lexis.Shut "@JsonTypeName(" [annotated "JsonTypeName", mark '('] :=
      shut_ofList rfl rfl
    simp only [hfind, hvalue, Option.bind_some, quoteOrNull]
    exact ⟨_, rfl,
      (hopen.enclose (reads_quote value) shut_paren).line.lines⟩

variable {name : String}

/-- The line that begins a class, with or without a superclass. -/
theorem line_class {superclass : String} {ts : List Lexeme}
    (hname : Text.isPlainIdentifier name.toList = true)
    (hsuper : superclass = "" ∧ ts = [] ∨ ∃ b, Text.isPlainIdentifier b.toList = true ∧
      superclass = " extends " ++ b ∧ ts = [word "extends", word b]) :
    lexis.Line ("public class " ++ name ++ superclass ++ " \x7b")
      ([word "public", word "class", word name] ++ ts ++ [mark '\x7b']) := by
  have hfront := shut_class.append_reads (reads_name hname)
  rcases hsuper with ⟨rfl, rfl⟩ | ⟨b, hb, rfl, rfl⟩
  · rw [String.append_empty]
    exact (hfront.append_shut shut_brace).line
  · have hextends : lexis.Shut " extends " [word "extends"] := shut_ofList rfl rfl
    rw [← String.append_assoc]
    exact ((hfront.append_shut hextends).enclose (reads_name hb) shut_brace).line

theorem exists_classLines (hplain : names.Plain) (fields : List Field) (base : Option String)
    (additional : Bool) (hname : Text.isPlainIdentifier name.toList = true)
    (hbase : ∀ b ∈ base, Text.isPlainIdentifier b.toList = true)
    (htag : ∀ b ∈ base, ∃ tag value, fields.find? (·.isTag) = some tag ∧ tag.tagValue = some value)
    (hfields : ∀ f ∈ dataFields fields, f.Shaped .java names) :
    ∃ lines, classLines name fields base additional = .ok lines ∧
      ((∀ f ∈ dataFields fields, lexis.Lines (shortBlockComment "    " f.description) []) →
        lexis.Lines lines (classLexemes name fields base additional)) := by
  obtain ⟨members, hmembers, hmemberLines⟩ :=
    exists_mapM fun f hf => exists_fieldLines hplain (hfields f hf)
  obtain ⟨typeName, htypeName, htypeNameLines⟩ := exists_typeNameLines htag
  refine ⟨_, bind_eq_ok.2 ⟨members, hmembers, bind_eq_ok.2 ⟨typeName, htypeName, rfl⟩⟩,
    fun hcomments => ?_⟩
  have hignore : lexis.Shut "@JsonIgnoreProperties(ignoreUnknown = true)"
      [annotated "JsonIgnoreProperties", mark '(', word "ignoreUnknown", mark '=', word "true",
        mark ')'] := shut_ofList rfl rfl
  have hblank : lexis.Lines [""] [] := rfl
  have hbody := Lexis.lines_intersperse hblank
    (((List.forall₂_and_left _ _).2 ⟨hcomments, hmemberLines⟩).imp fun _ _ h => h.2 h.1)
  cases base with
  | none =>
    have hclass := line_class hname (.inl ⟨rfl, rfl⟩)
    exact ((((Lexis.lines_if hignore.line.lines).append htypeNameLines).append
      hclass.lines).append hbody).append shut_end.line.lines |>.of_eq (by
        simp [classLexemes, superclassLexemes, nonEmpty])
  | some b =>
    have hclass := line_class hname (.inr ⟨b, hbase b rfl, rfl, rfl⟩)
    simp only [nonEmpty_of_isPlainIdentifier (hbase b rfl)]
    exact ((((Lexis.lines_if hignore.line.lines).append htypeNameLines).append
      hclass.lines).append hbody).append shut_end.line.lines |>.of_eq (by
        simp [classLexemes, superclassLexemes, nonEmpty_of_isPlainIdentifier (hbase b rfl)])

theorem lines_memberLines {members : List (String × String)}
    (h : ∀ m ∈ members, Text.isPlainIdentifier m.1.toList = true) :
    lexis.Lines (memberLines members) (memberLexemes members) := by
  have hspace : lexis.Shut "    " [] := shut_ofList rfl rfl
  have hblank : lexis.Lines [""] [] := rfl
  have hkey : ∀ value, lexis.Line ("    @JsonProperty(" ++ Text.quote value ++ ")")
      [annotated "JsonProperty", mark '(', quoted value, mark ')'] := fun value =>
    (shut_property.enclose (reads_quote value) shut_paren).line
  fun_induction memberLines members with
  | case1 => exact .nil
  | case2 name value =>
    exact .cons (hkey value) (hspace.append_reads (reads_name (h _ List.mem_cons_self))).line.lines
  | case3 name value rest hrest ih =>
    rw [List.forall_mem_cons] at h
    have hname := hspace.enclose (reads_name h.1) shut_comma
    have hlines := Lexis.Lines.append (.cons (hkey value) (.cons hname.line hblank)) (ih h.2)
    cases rest with
    | nil => exact absurd rfl hrest
    | cons => exact hlines

theorem lines_separated {α : Type} {f : α → String} {g : α → List Lexeme} {as : List α}
    (h : ∀ a ∈ as, lexis.Shut (f a) (g a)) :
    lexis.Lines (separated "," (as.map f)) (((as.map g).intersperse [mark ',']).flatten) := by
  induction as with
  | nil => exact .nil
  | cons a as ih =>
    rw [List.forall_mem_cons] at h
    cases as with
    | nil => simpa [separated] using h.1.line.lines
    | cons b bs =>
      rw [List.map_cons, List.map_cons, List.map_cons, List.map_cons, separated,
        List.intersperse_cons_cons]
      · exact (Lexis.Lines.cons (h.1.append shut_comma).line (ih h.2)).of_eq (by simp)
      · simp

set_option maxRecDepth 1000 in
theorem shut_typeInfo :
    lexis.Shut
      "@JsonTypeInfo(use = JsonTypeInfo.Id.NAME, include = JsonTypeInfo.As.PROPERTY, property = "
      typeInfoLexemes := shut_ofList rfl rfl

theorem lines_unionLines (hname : Text.isPlainIdentifier name.toList = true) (tagWire : String)
    {variants : List (String × String)}
    (hvariants : ∀ v ∈ variants, Text.isPlainIdentifier v.2.toList = true) :
    lexis.Lines (unionLines name tagWire variants) (unionLexemes name tagWire variants) := by
  have hsubtypes : lexis.Shut "@JsonSubTypes(\x7b"
      [annotated "JsonSubTypes", mark '(', mark '\x7b'] := shut_ofList rfl rfl
  have htype : lexis.Shut "    @JsonSubTypes.Type(name = "
      [annotated "JsonSubTypes", mark '.', word "Type", mark '(', word "name", mark '='] :=
    shut_ofList rfl rfl
  have hvalue : lexis.Shut ", value = " [mark ',', word "value", mark '='] := shut_ofList rfl rfl
  have hclass : lexis.Shut ".class)" [mark '.', word "class", mark ')'] := shut_ofList rfl rfl
  have hend : lexis.Shut "\x7d)" [mark '\x7d', mark ')'] := shut_ofList rfl rfl
  have habstract : lexis.Shut "public abstract class "
      [word "public", word "abstract", word "class"] := shut_ofList rfl rfl
  have hbranches : ∀ v ∈ variants, lexis.Shut ("    @JsonSubTypes.Type(name = " ++ Text.quote v.1 ++
      ", value = " ++ v.2 ++ ".class)") (variantLexemes v) := fun v hv =>
    (htype.enclose (reads_quote v.1) hvalue).enclose (reads_name (hvariants v hv)) hclass
  have hfront := shut_typeInfo.enclose (reads_quote tagWire) shut_paren
  have hback := habstract.enclose (reads_name hname) shut_brace
  exact ((Lexis.Lines.cons hfront.line hsubtypes.line.lines).append
    (lines_separated hbranches)).append (.cons hend.line (.cons hback.line shut_end.line.lines))

theorem lines_aliasLines {type : String} {ts : List Lexeme}
    (hname : Text.isPlainIdentifier name.toList = true) (htype : lexis.Reads type ts) :
    lexis.Lines (aliasLines name type) (aliasLexemes name ts) := by
  have hjsonValue : lexis.Line "    @JsonValue" [annotated "JsonValue"] := line_ofList rfl rfl
  have hpublic : lexis.Shut "    public " [word "public"] := shut_ofList rfl rfl
  have hvalue : lexis.Shut " value;" [word "value", mark ';'] := shut_ofList rfl rfl
  have hblank : lexis.Line "" [] := line_ofList rfl rfl
  have hempty : lexis.Shut "() \x7b" [mark '(', mark ')', mark '\x7b'] := shut_ofList rfl rfl
  have hend : lexis.Line "    \x7d" [mark '\x7d'] := line_ofList rfl rfl
  have hjsonCreator : lexis.Line "    @JsonCreator" [annotated "JsonCreator"] := line_ofList rfl rfl
  have hparen : lexis.Shut "(" [mark '('] := shut_ofList rfl rfl
  have hparameter : lexis.Shut " value) \x7b" [word "value", mark ')', mark '\x7b'] :=
    shut_ofList rfl rfl
  have hassign : lexis.Line "        this.value = value;"
      [word "this", mark '.', word "value", mark '=', word "value", mark ';'] := line_ofList rfl rfl
  have hlast : lexis.Line "\x7d" [mark '\x7d'] := line_ofList rfl rfl
  have hfirst := shut_class.enclose (reads_name hname) shut_brace
  have hfield := hpublic.enclose htype hvalue
  have hdefault := hpublic.enclose (reads_name hname) hempty
  have hcreator := (hpublic.enclose (reads_name hname) hparen).enclose htype hparameter
  have hlines := Lexis.Lines.cons hfirst.line <| .cons hjsonValue <| .cons hfield.line <|
    .cons hblank <| .cons hdefault.line <| .cons hend <| .cons hblank <| .cons hjsonCreator <|
    .cons hcreator.line <| .cons hassign <| .cons hend hlast.lines
  exact hlines.of_eq (by simp [aliasLexemes])

/-- A declaration of the mapping has lines, and they consist of the lexemes of the declaration if its
comments hold. -/
theorem exists_lines (hplain : names.Plain) {d : Declaration} (h : d.Shaped .java names) :
    ∃ lines, declarationLines d = .ok lines ∧
      (CommentsHold d → lexis.Lines lines (declarationLexemes d)) := by
  have hname : Text.isPlainIdentifier d.name.toList = true := hplain.types _ h.name
  cases h with
  | @struct header fields _ hfields additional =>
    obtain ⟨lines, hlines, hall⟩ := exists_classLines hplain fields none additional hname
      (by simp) (by simp) fun f hf => hfields f (List.mem_of_mem_filter hf)
    exact ⟨_, bind_eq_ok.2 ⟨lines, hlines, rfl⟩, fun h => h.main.append (hall h.field)⟩
  | @branch header fields b tagName _ hunion _ hfields additional =>
    have hbase : ∀ u ∈ some b.union, Text.isPlainIdentifier u.toList = true := by
      simpa using hplain.types _ hunion
    obtain ⟨lines, hlines, hall⟩ := exists_classLines hplain (b.field tagName :: fields)
      (some b.union) additional hname hbase (fun _ _ => ⟨b.field tagName, b.value, rfl, rfl⟩)
      fun f hf => hfields f (List.mem_of_mem_filter hf)
    exact ⟨_, bind_eq_ok.2 ⟨lines, hlines, rfl⟩, fun h => h.main.append (hall h.field)⟩
  | @enum header members _ hmembers _ =>
    have henum : lexis.Shut "public enum " [word "public", word "enum"] := shut_ofList rfl rfl
    have hfirst := henum.enclose (reads_name hname) shut_brace
    have hmembers := lines_memberLines fun m hm => hplain.members _ (hmembers m hm)
    exact ⟨_, rfl, fun h => ((h.main.append hfirst.line.lines).append hmembers).append
      shut_end.line.lines⟩
  | @union header variants _ tagName tagWire hvariants _ =>
    exact ⟨_, rfl, fun h => h.main.append
      (lines_unionLines hname tagWire fun v hv => hplain.types _ (hvariants v hv))⟩
  | @synonym header t _ ht =>
    obtain ⟨type, htype, hreads⟩ := reads_renderType hplain ht
    exact ⟨_, bind_eq_ok.2 ⟨type, htype, rfl⟩, fun h => h.main.append (lines_aliasLines hname hreads)⟩

theorem exists_text (hplain : names.Plain) {d : Declaration} (h : d.Shaped .java names)
    (setting : Setting) : ∃ text, java.renderDeclaration setting d = .ok text ∧
      (CommentsHold d → lexis.lexemes text = declarationLexemes d) := by
  obtain ⟨lines, hlines, hall⟩ := exists_lines hplain h
  exact ⟨layout lines, bind_eq_ok.2 ⟨lines, hlines, rfl⟩, fun h => Lexis.lexemes_layout (hall h)⟩

end

end Typegen.Target.Java
