import Typegen.Proofs.Decoders
import Typegen.Proofs.Initials
import Typegen.Proofs.Shapes
import Typegen.Proofs.TypeLexemes
import Typegen.Target.Render

/-!
# Imported names in Python declarations

`Uses` says which of the names that a module may import a piece of code uses, by the view on its
words.  No name of the table is such a name (`Clear`), so that these uses are those that the lines of
a declaration bring along: `declarationUses` lists them (`exists_text`).

A description stands in a comment or in a documentation string of its own.  What is told of a
declaration holds where its description ends there (`Aside`).
-/

namespace Typegen

/-- An expression that the mapping makes is well formed. -/
theorem TypeExpr.Formed.wellFormed {target : Target} {P : String → Prop} {t : TypeExpr}
    (h : t.Formed target P) : t.WellFormed := by
  intro e he hkind
  cases h.of_mem_walk e he with
  | any | primitive | named | literal => rcases hkind with hkind | hkind | hkind <;> cases hkind
  | array | map | optional => rfl

namespace Target.Python

open Lexeme (word mark quoted)
open Lexis (shut_ofList reads_ofList line_ofList reads_name reads_quote)
open Text (isPlainIdentifier)

/-! ## Uses of imported names -/

/-- A name that a module may import stands for itself. -/
def imported? (name : String) : Option String := if name ∈ importedNames then some name else none

theorem imported?_eq_none {name : String} (h : name ∉ importedNames) : imported? name = none :=
  if_neg h

/-- A piece of code that uses some names that a module may import, in this order. -/
abbrev Uses (text : String) (names : List String) : Prop :=
  lexis.Shows (Lexeme.denotes? imported?) text names

/-- Lines of code that use some names that a module may import, in this order. -/
abbrev LinesUse (lines names : List String) : Prop :=
  lexis.LinesShow (Lexeme.denotes? imported?) lines names

theorem uses_name {name : String} (h : isPlainIdentifier name.toList = true)
    (himported : name ∉ importedNames) : Uses name [] :=
  ⟨_, reads_name h, denoted_cons_word (imported?_eq_none himported)⟩

theorem uses_quote (s : String) : Uses (Text.quote s) [] := ⟨_, reads_quote s, rfl⟩

theorem linesUse_map {α : Type} {f : α → String} {xs : List α} (h : ∀ x ∈ xs, Uses (f x) []) :
    LinesUse (xs.map f) [] :=
  (Lexis.linesShow_map fun x hx => (h x hx).lines).of_eq
    (List.flatMap_eq_nil_iff.2 fun _ _ => rfl).symm

/-- A table none of whose names can be taken for one that is imported. -/
structure Clear (names : Naming.Table) : Prop where
  types : ∀ id ∈ names.typeNames, IsClassName id ∧ id ∉ importedNames
  fields : ∀ id ∈ names.fieldNames, isPlainIdentifier id.toList = true ∧ id ∉ importedNames
  members : ∀ id ∈ names.allMembers, isPlainIdentifier id.toList = true ∧ id ∉ importedNames

theorem clear_of_assign {schema : Schema} {rootName : Json} {names : Naming.Table}
    (h : Naming.assign rules schema rootName = .ok names) : Clear names := by
  have hlegal := Naming.spellsLegally_rules .python
  have hplain := Naming.Table.plain_of_assign hlegal (by decide) (by decide) (by decide) h
  have hkeywords : keywords ⊆ rules.reserved.words := fun x hx =>
    List.mem_append_left _ (List.mem_append_left _ hx)
  have himported : importedNames ⊆ rules.reserved.words := fun x hx =>
    List.mem_append_left _ (List.mem_append_right _ hx)
  have hfields : importedNames ⊆ rules.fieldReserved.words := fun x hx =>
    List.mem_append_left _ (List.mem_append_right _ hx)
  refine ⟨fun id hid => ?_, fun id hid => ⟨hplain.fields id hid, fun hmem => ?_⟩,
    fun id hid => ⟨hplain.members id hid, fun hmem => ?_⟩⟩
  · have hclaims := Naming.claimsType_of_mem_typeNames h id hid
    have hfree := hclaims.notMem_reserved
    refine ⟨⟨hplain.types id hid, ?_, fun hmem => hfree (hkeywords hmem)⟩,
      fun hmem => hfree (himported hmem)⟩
    refine hclaims.begins hlegal rfl rfl ?_ fun c hc => by simp [hc]
    rintro _ ⟨⟩
    rfl
  · exact (Naming.claimsField_of_mem_fieldNames h id hid).notMem_reserved (hfields hmem)
  · exact (Naming.claimsMember_of_mem_allMembers h id hid).notMem_reserved (himported hmem)

theorem Clear.uses_type {names : Naming.Table} (h : Clear names) {id : String}
    (hid : id ∈ names.typeNames) : Uses id [] :=
  uses_name (h.types id hid).1.plain (h.types id hid).2

/-! ## Types -/

theorem shut_bracket : lexis.Shut "]" [mark ']'] := shut_ofList rfl rfl

theorem shut_indent : lexis.Shut "    " [] := shut_ofList rfl rfl

theorem shut_equals : lexis.Shut " = " [mark '='] := shut_ofList rfl rfl

/-- The lexemes in front of what a type expression holds. -/
def typeFront : TypeKind → String → List Lexeme
  | .literal, value => [word "Literal", mark '[', quoted value, mark ']']
  | .array, _ => [word "list", mark '[']
  | .map, _ => [word "dict", mark '[', word "str", mark ',']
  | .optional, _ => []
  | _, name => [word name]

/-- The lexemes behind what a type expression holds. -/
def typeBack : TypeKind → List Lexeme
  | .array => [mark ']']
  | .map => [mark ']']
  | .optional => [mark '|', word "None"]
  | _ => []

/-- The lexemes around what type expressions hold. -/
def lexemeStyle : LexemeStyle := ⟨typeFront, typeBack⟩

theorem spells_lexemeStyle : lexemeStyle.Spells lexis style where
  any _ := ⟨rfl, rfl⟩
  primitive _ := ⟨rfl, rfl⟩
  named _ := ⟨rfl, rfl⟩
  literal value := by
    have hopen : lexis.Shut "Literal[" [word "Literal", mark '['] := shut_ofList rfl rfl
    exact ⟨(hopen.enclose (reads_quote value) shut_bracket).reads, rfl⟩
  array h := by
    have hopen : lexis.Shut "list[" [word "list", mark '['] := shut_ofList rfl rfl
    exact (hopen.enclose h shut_bracket).reads
  map h := by
    have hopen : lexis.Shut "dict[str, " [word "dict", mark '[', word "str", mark ','] :=
      shut_ofList rfl rfl
    exact (hopen.enclose h shut_bracket).reads
  optional _ _ h := by
    have hnone : lexis.Reads " | None" ([mark '|'] ++ [word "None"]) := reads_ofList rfl rfl rfl
    exact h.append hnone

theorem isPlainIdentifier_spelling (p : Schema.Primitive) :
    isPlainIdentifier (Target.python.spelling p).toList = true := by
  cases p <;> decide

/-- The imported names that a type expression uses. -/
def typeUses (t : TypeExpr) : List String := denoted imported? (t.lexemes lexemeStyle)

/-- The imported name that an expression uses apart from those inside it. -/
def typeName? (t : TypeExpr) : Option String :=
  match t.kind with
  | .any => some "Any"
  | .literal => some "Literal"
  | .primitive => if t.name = "datetime" then some "datetime" else none
  | _ => none

section

variable {names : Naming.Table} {declared : Declared} {f : Field} {ds : List Declaration}
  {t : TypeExpr}

theorem uses_renderType (hclear : Clear names) (h : t.Formed .python (· ∈ names.typeNames)) :
    ∃ text, renderType t = .ok text ∧ Uses text (typeUses t) := by
  obtain ⟨text, htext, hreads⟩ := TypeExpr.exists_reads_spell spells_lexemeStyle h (by decide)
    isPlainIdentifier_spelling fun id hid => (hclear.types id hid).1.plain
  exact ⟨text, htext, _, hreads, rfl⟩

theorem denoted_own (hclear : Clear names) (h : t.Formed .python (· ∈ names.typeNames)) :
    denoted imported? (lexemeStyle.own t) = (typeName? t).toList := by
  cases h with
  | primitive p => cases p <;> rfl
  | named hid => exact denoted_cons_word (imported?_eq_none (hclear.types _ hid).2)
  | any | literal | array | map | optional => rfl

theorem mem_typeUses (hclear : Clear names) (h : t.Formed .python (· ∈ names.typeNames))
    {x : String} : x ∈ typeUses t ↔ ∃ e ∈ t.walk, typeName? e = some x := by
  rw [typeUses, TypeExpr.mem_denoted_lexemes]
  refine exists_congr fun e => and_congr_right fun he => ?_
  rw [denoted_own hclear (h.of_mem_walk e he), Option.mem_toList]

/-! ## Decoders -/

theorem notMem_importedNames_numbered {c : Char} (hc : c = 'k' ∨ c = 'x') (n : Nat) :
    String.singleton c ++ toString n ∉ importedNames := by
  intro hmem
  have hheads : importedNames.all
      (fun w => w.toList.head? ≠ some 'k' ∧ w.toList.head? ≠ some 'x') = true := by decide
  have hhead := List.all_eq_true.1 hheads _ hmem
  rw [toList_numbered] at hhead
  rcases hc with rfl | rfl <;> simp at hhead

theorem denoted_decoderLexemes {c : Callable} {path : List Step} {value : String} {depth : Nat}
    (hc : c.className ∉ importedNames) (hvalue : value ∉ importedNames) :
    denoted imported? (decoderLexemes c path value depth) = [] := by
  have hfixed : ∀ x ∈ ["None", "if", "is", "else", "for", "in", "items", "from_dict"],
      imported? x = none := by decide
  simp only [List.forall_mem_cons] at hfixed
  induction path generalizing value depth with
  | nil =>
    have hclass := imported?_eq_none hc
    cases c with
    | fromDict | type =>
      simp [decoderLexemes, Callable.lexemes, Callable.className, denoted_cons_word, hfixed,
        imported?_eq_none hvalue, hclass] at hclass ⊢
  | cons step path ih =>
    have hitem : itemName depth ∉ importedNames := notMem_importedNames_numbered (.inr rfl) depth
    have hkey : keyName depth ∉ importedNames := notMem_importedNames_numbered (.inl rfl) depth
    have hnames := And.intro (imported?_eq_none hitem) (imported?_eq_none hkey)
    cases step with
    | orNone =>
      simp [decoderLexemes, denoted_cons_word, hfixed, imported?_eq_none hvalue, ih hvalue]
    | each | values =>
      simp [decoderLexemes, denoted_cons_word, hfixed, imported?_eq_none hvalue, hnames, ih hitem]

/-- A field has no decoder, or one that ends with the class to which its type leads. -/
theorem fieldDecoder_cases (hds : ∀ d ∈ ds, d.Shaped .python names)
    (hf : f.type.Formed .python (· ∈ names.typeNames)) :
    fieldDecoder (Declaration.byName ds) f = .ok none ∨
      ∃ path c, LeadsTo (Declaration.byName ds) [] f.type path (.calls c) ∧
        fieldDecoder (Declaration.byName ds) f =
          .ok (some ("lambda v: " ++ decoderText c path "v" 0)) := by
  have hnodup := nodup_byName ds
  by_cases hmentions : MentionsOpaque (Declaration.byName ds) f.type
  · obtain ⟨path, ending, hleads⟩ := exists_leadsTo (.init hnodup) f.type "v" 0
    have hresult := fieldDecoder_eq hnodup hmentions hleads
    cases ending with
    | asIs => exact .inl hresult
    | calls c => exact .inr ⟨path, c, hleads, hresult⟩
    | nowhere =>
      refine absurd rfl (hleads.ne_nowhere hf.wellFormed fun name header target hlookup => ?_)
      have hshaped := hds _ (mem_byName (mem_of_lookup hlookup)).1
      cases hshaped with
      | synonym _ htarget => exact htarget.wellFormed
  · exact .inl (fieldDecoder_of_not_mentions hmentions)

/-- A field has a decoder or none, and a decoder uses no imported name. -/
theorem exists_fieldDecoder (hclear : Clear names) (hds : ∀ d ∈ ds, d.Shaped .python names)
    (hf : f.type.Formed .python (· ∈ names.typeNames)) :
    ∃ decoder, fieldDecoder (Declaration.byName ds) f = .ok decoder ∧
      ∀ text ∈ decoder, Uses text [] := by
  rcases fieldDecoder_cases hds hf with hnone | ⟨path, c, hleads, hresult⟩
  · exact ⟨none, hnone, by simp⟩
  · refine ⟨_, hresult, ?_⟩
    obtain ⟨e, he, hname⟩ := List.mem_map.1 (hleads.className_mem rfl)
    have hmem := mem_byName (List.mem_of_mem_filter he)
    have hclass := hclear.types _ (hds _ hmem.1).name
    rw [← hmem.2, hname] at hclass
    have hlambda : lexis.Shut "lambda v: " [word "lambda", word "v", mark ':'] :=
      shut_ofList rfl rfl
    rintro _ ⟨⟩
    refine Lexis.Shows.prepend hlambda rfl ⟨_, reads_decoderText hclass.1 isVariable_v, ?_⟩
    exact denoted_decoderLexemes hclass.2 (by decide)

/-! ## Fields -/

/-- A field as a class has them: one of a key, or the tag of a branch. -/
structure Suits (names : Naming.Table) (f : Field) : Prop where
  name : f.name ∈ names.fieldNames
  type : f.type.Formed .python (· ∈ names.typeNames)
  tag : f.isTag = true → ∃ value, f.tagValue = some value

theorem suits_of_shaped (h : f.Shaped .python names) : Suits names f :=
  ⟨h.name.mem_fieldNames, h.type, fun htag => Bool.noConfusion (h.isTag.symm.trans htag)⟩

theorem suits_tag {b : Mapping.Branch} {tagName : String} (h : names.NamesKey b.tag tagName) :
    Suits names (b.field tagName) :=
  ⟨h.mem_fieldNames, .literal b.value, fun _ => ⟨b.value, rfl⟩⟩

/-- The imported names that the metadata of a field use. -/
def metadataUses (declared : Declared) (f : Field) : List String :=
  match hasMetadata declared f with
  | .ok true => ["field", "config"]
  | _ => []

/-- The imported names that the line of a field uses. -/
def fieldUses (declared : Declared) (f : Field) : List String :=
  typeUses f.type ++ metadataUses declared f

theorem metadataUses_eq {decoder : Option String} (h : fieldDecoder declared f = .ok decoder) :
    metadataUses declared f = if f.isRenamed || decoder.isSome then ["field", "config"] else [] := by
  cases hrenamed : f.isRenamed with
  | true => simp [metadataUses, hasMetadata, hrenamed]
  | false => cases decoder <;> simp [metadataUses, hasMetadata, hrenamed, h]

theorem uses_plainDefault (h : f.isTag = true → ∃ value, f.tagValue = some value) :
    ∀ text ∈ plainDefault f, Uses text [] := by
  intro text htext
  unfold plainDefault at htext
  split at htext
  · next htag =>
    obtain ⟨value, hvalue⟩ := h htag
    rw [hvalue] at htext
    cases htext
    exact uses_quote value
  · split at htext
    · cases htext
      exact uses_name (by decide) (by decide)
    · cases htext

/-- A field without a right-hand side has no metadata, and metadata use two names. -/
theorem uses_fieldDefault {decoder : Option String}
    (htag : f.isTag = true → ∃ value, f.tagValue = some value)
    (hdecoder : ∀ text ∈ decoder, Uses text []) :
    (fieldDefault f decoder = none ∧ (f.isRenamed || decoder.isSome) = false) ∨
      ∃ text, fieldDefault f decoder = some text ∧
        Uses text (if f.isRenamed || decoder.isSome then ["field", "config"] else []) := by
  have hplain := uses_plainDefault htag
  rw [fieldDefault]
  generalize hgiven : (if f.isRenamed then ["field_name=" ++ Text.quote f.wire] else []) ++
      decoder.toList.map ("decoder=" ++ ·) = options
  have hsome : (f.isRenamed || decoder.isSome) = !options.isEmpty := by
    rw [← hgiven]
    cases f.isRenamed <;> cases decoder <;> rfl
  have hoptions : ∀ text ∈ options, Uses text [] := by
    have hkey : lexis.Shut "field_name=" [word "field_name", mark '='] := shut_ofList rfl rfl
    have hfunction : lexis.Shut "decoder=" [word "decoder", mark '='] := shut_ofList rfl rfl
    rw [← hgiven]
    refine List.forall_mem_append.2 ⟨fun text htext => ?_, fun text htext => ?_⟩
    · split at htext
      · rw [List.mem_singleton.1 htext]
        exact .prepend hkey rfl (uses_quote f.wire)
      · cases htext
    · obtain ⟨body, hbody, rfl⟩ := List.mem_map.1 htext
      exact .prepend hfunction rfl (hdecoder body (Option.mem_toList.1 hbody))
  rw [hsome]
  clear hgiven
  cases options with
  | nil =>
    cases hdefault : plainDefault f with
    | none => exact .inl ⟨rfl, rfl⟩
    | some text => exact .inr ⟨text, rfl, hplain text hdefault⟩
  | cons option options =>
    have hconfig : lexis.Shut "metadata=config(" [word "metadata", mark '=', word "config", mark '('] :=
      shut_ofList rfl rfl
    have hcomma : lexis.Shut ", " [mark ','] := shut_ofList rfl rfl
    have hfield : lexis.Shut "field(" [word "field", mark '('] := shut_ofList rfl rfl
    have hnamed : lexis.Shut "field(default=" [word "field", mark '(', word "default", mark '='] :=
      shut_ofList rfl rfl
    have hclose : lexis.Shut ")" [mark ')'] := shut_ofList rfl rfl
    have hlist : Uses (", ".intercalate ((option :: options).map id)) _ :=
      Lexis.shows_intercalate hcomma rfl (Lexis.startsApart_ofList rfl rfl) hoptions
    rw [List.map_id, List.flatMap_eq_nil_iff.2 fun _ _ => rfl] at hlist
    have hmetadata := (Lexis.Shows.after hconfig hlist).append_shut hclose rfl
    cases hdefault : plainDefault f with
    | none =>
      exact .inr ⟨_, rfl, ((Lexis.Shows.after hfield hmetadata).append_shut hclose rfl).of_eq rfl⟩
    | some text =>
      have hboth := (Lexis.Shows.after hnamed (hplain text hdefault)).between hmetadata hcomma rfl
      exact .inr ⟨_, rfl, (hboth.append_shut hclose rfl).of_eq rfl⟩

theorem exists_fieldLine (hclear : Clear names) (hds : ∀ d ∈ ds, d.Shaped .python names)
    (hf : Suits names f) :
    ∃ line, fieldLine (Declaration.byName ds) f = .ok line ∧
      LinesUse [line] (fieldUses (Declaration.byName ds) f) := by
  obtain ⟨type, htype, huses⟩ := uses_renderType hclear hf.type
  obtain ⟨decoder, hdecoder, hfunction⟩ := exists_fieldDecoder hclear hds hf.type
  refine ⟨_, bind_eq_ok.2 ⟨type, htype, bind_eq_ok.2 ⟨decoder, hdecoder, rfl⟩⟩, ?_⟩
  have hcolon : lexis.Shut ": " [mark ':'] := shut_ofList rfl rfl
  obtain ⟨hplain, himported⟩ := hclear.fields _ hf.name
  have hname := shut_indent.enclose (reads_name hplain) hcolon
  have hfield : Uses ("    " ++ f.name ++ ": " ++ type) (typeUses f.type) :=
    .prepend hname (denoted_cons_word (imported?_eq_none himported)) huses
  rw [fieldUses, metadataUses_eq hdecoder]
  rcases uses_fieldDefault hf.tag hfunction with ⟨hnone, hplain⟩ | ⟨text, hsome, htext⟩
  · simp only [hnone, hplain]
    simpa using hfield.lines
  · simp only [hsome]
    rw [← String.append_assoc]
    exact (hfield.between htext shut_equals rfl).lines

theorem mem_orderedFields {fields : List Field} : f ∈ orderedFields fields ↔ f ∈ fields := by
  simp only [orderedFields, List.mem_append, List.mem_filter, ← and_or_left]
  cases f.isTag || f.mayBeAbsent <;> simp

/-! ## Comments and documentation strings -/

/-- Lines that hold only comments and string literals. -/
def Aside (lines : List String) : Prop :=
  ∃ ts, lexis.Lines lines ts ∧ ∀ t ∈ ts, ∃ raw, t = .text raw

theorem Aside.linesUse {lines : List String} (h : Aside lines) : LinesUse lines [] := by
  obtain ⟨ts, hlines, hts⟩ := h
  refine ⟨ts, hlines, List.filterMap_eq_nil_iff.2 fun t ht => ?_⟩
  obtain ⟨raw, rfl⟩ := hts t ht
  rfl

/-- The lines in which the description of a declaration stands. -/
def descriptionLines : Declaration → List String
  | .synonym h _ => lineComments "#" h.description
  | d => docLines d.description

/-! ## Declarations -/

/-- The imported names that a declaration uses. -/
def declarationUses (declared : Declared) : Declaration → List String
  | .struct _ fields _ _ =>
    ["dataclass_json", "dataclass"] ++ (orderedFields fields).flatMap (fieldUses declared)
  | .enum _ _ => ["Enum"]
  | .union _ _ _ _ => ["dataclass"]
  | .synonym _ target => typeUses target

/-- The line that begins a class, with or without a base class. -/
theorem linesUse_class {name bases : String} (hname : Uses name [])
    (hbases : bases = "" ∨ ∃ b, Uses b [] ∧ bases = "(" ++ b ++ ")") :
    LinesUse ["class " ++ name ++ bases ++ ":"] [] := by
  have hclass : lexis.Shut "class " [word "class"] := shut_ofList rfl rfl
  have hcolon : lexis.Shut ":" [mark ':'] := shut_ofList rfl rfl
  have hfront : Uses ("class " ++ name) [] := .prepend hclass rfl hname
  rcases hbases with rfl | ⟨b, hb, rfl⟩
  · rw [String.append_empty]
    exact (hfront.append_shut hcolon rfl).lines
  · have hopen : lexis.Shut "(" [mark '('] := shut_ofList rfl rfl
    have hclose : lexis.Shut "):" [mark ')', mark ':'] := shut_ofList rfl rfl
    have hboth := (hfront.between hb hopen rfl).append_shut hclose rfl
    simpa [String.append_assoc] using hboth.lines

theorem exists_classLines (hclear : Clear names) (hds : ∀ d ∈ ds, d.Shaped .python names)
    {h : Header} (hname : h.name ∈ names.typeNames) {fields : List Field}
    (hfields : ∀ f ∈ fields, Suits names f) {base : Option String}
    (hbase : ∀ b ∈ base, b ∈ names.typeNames) :
    ∃ lines, classLines (Declaration.byName ds) h fields base = .ok lines ∧
      (Aside (docLines h.description) → LinesUse lines (["dataclass_json", "dataclass"] ++
        (orderedFields fields).flatMap (fieldUses (Declaration.byName ds)))) := by
  obtain ⟨members, hmembers, hall⟩ := exists_mapM fun f hf =>
    exists_fieldLine hclear hds (hfields f (mem_orderedFields.1 hf))
  refine ⟨_, bind_eq_ok.2 ⟨members, hmembers, rfl⟩, fun haside => ?_⟩
  have hjson : LinesUse ["@dataclass_json"] ["dataclass_json"] :=
    ⟨[mark '@', word "dataclass_json"], Lexis.Line.lines (line_ofList rfl rfl), rfl⟩
  have hdata : LinesUse ["@dataclass"] ["dataclass"] :=
    ⟨[mark '@', word "dataclass"], Lexis.Line.lines (line_ofList rfl rfl), rfl⟩
  have hpass (b : Bool) : LinesUse (if b then ["    pass"] else []) [] := by
    cases b with
    | true => exact ⟨[word "pass"], Lexis.Line.lines (line_ofList rfl rfl), rfl⟩
    | false => exact ⟨[], .nil, rfl⟩
  have hname := hclear.uses_type hname
  have hlines (bases : String) (hbases : bases = "" ∨ ∃ b, Uses b [] ∧ bases = "(" ++ b ++ ")") :
      LinesUse (["@dataclass_json", "@dataclass", "class " ++ h.name ++ bases ++ ":"] ++
        docLines h.description ++ members ++
        if members.isEmpty && (nonEmpty h.description).isNone then ["    pass"] else [])
        (["dataclass_json", "dataclass"] ++
          (orderedFields fields).flatMap (fieldUses (Declaration.byName ds))) :=
    ((((hjson.append (hdata.append (linesUse_class hname hbases))).append haside.linesUse).append
      (Lexis.linesShow_of_forall₂ hall)).append (hpass _)).of_eq (by simp)
  cases base with
  | none => exact hlines "" (.inl rfl)
  | some b =>
    have hb := hbase b rfl
    simp only [nonEmpty_of_isPlainIdentifier (hclear.types b hb).1.plain]
    exact hlines _ (.inr ⟨b, hclear.uses_type hb, rfl⟩)

theorem linesUse_enumLines (hclear : Clear names) {h : Header} (hname : h.name ∈ names.typeNames)
    {members : List (String × String)} (hmembers : ∀ m ∈ members, m.1 ∈ names.allMembers)
    (haside : Aside (docLines h.description)) : LinesUse (enumLines h members) ["Enum"] := by
  have hclass : lexis.Shut "class " [word "class"] := shut_ofList rfl rfl
  have henum : lexis.Shut "(str, Enum):"
      [mark '(', word "str", mark ',', word "Enum", mark ')', mark ':'] :=
    shut_ofList rfl rfl
  have hfirst : Uses ("class " ++ h.name ++ "(str, Enum):") ["Enum"] :=
    ((hclear.uses_type hname).prepend hclass rfl).before henum
  have hlines : LinesUse (members.map fun m => "    " ++ m.1 ++ " = " ++ Text.quote m.2) [] := by
    refine linesUse_map fun m hm => ?_
    obtain ⟨hplain, himported⟩ := hclear.members _ (hmembers m hm)
    exact ((uses_name hplain himported).prepend shut_indent rfl).between (uses_quote m.2)
      shut_equals rfl
  exact (hfirst.lines.append haside.linesUse).append hlines

theorem mem_dispatch {variants : List (String × String)} {v : String × String}
    (h : v ∈ dispatch variants) : v ∈ variants := by
  rcases Json.mem_foldl_setMember h with h | ⟨w, hw, rfl⟩
  · cases h
  · exact hw

/-- The documentation string that quotes a key is one literal. -/
theorem uses_selectedBy (s : String) :
    Uses ("        \"\"\"Decode the variant selected by the " ++ Text.quote s ++ " key.\"\"\"") [] := by
  obtain ⟨w, hopen⟩ : ∃ w, lexis.scan .code
      "        \"\"\"Decode the variant selected by the ".toList = ([], .long 0 w) :=
    ⟨_, Lexis.scan_ofList rfl rfl⟩
  obtain ⟨n, w', hquote⟩ := Lexis.scan_long_quote (l := lexis) rfl w s
  obtain ⟨raw, hclose⟩ : ∃ raw, lexis.scan (.long n w') " key.\"\"\"".toList =
      ([.text raw], .code) := ⟨_, Lexis.scan_ofList rfl rfl⟩
  refine ⟨[.text raw], Lexis.Shut.reads ?_, rfl⟩
  rw [Lexis.Shut, String.toList_append, String.toList_append, List.append_assoc,
    Lexis.scan_trans hopen, Lexis.scan_trans hquote, hclose]
  rfl

/-- The message that names a class is one literal. -/
theorem uses_unknownTag {name : String} (hname : isPlainIdentifier name.toList = true) :
    Uses ("            raise ValueError(f\"Unknown tag for " ++ name ++ ": \x7btag!r\x7d\")") [] := by
  obtain ⟨w, hopen⟩ : ∃ w, lexis.scan .code
      "            raise ValueError(f\"Unknown tag for ".toList =
        ([word "raise", word "ValueError", mark '('], .text w) :=
    ⟨_, Lexis.scan_ofList rfl rfl⟩
  have hclass := Lexis.scan_text_name (l := lexis) (w := w) fun c hc =>
    Text.isIdentifierTail_iff.2 (Text.plain_of_isPlainIdentifier hname c hc)
  obtain ⟨raw, hclose⟩ : ∃ raw, lexis.scan (.text (w ++ name.toList))
      ": \x7btag!r\x7d\")".toList = ([.text raw, mark ')'], .code) := ⟨_, Lexis.scan_ofList rfl rfl⟩
  refine ⟨[word "raise", word "ValueError", mark '(', .text raw, mark ')'], Lexis.Shut.reads ?_, rfl⟩
  rw [Lexis.Shut, String.toList_append, String.toList_append, List.append_assoc,
    Lexis.scan_trans hopen, Lexis.scan_trans hclass, hclose]
  rfl

set_option maxRecDepth 1000 in
theorem shut_fromDict :
    lexis.Shut "    def from_dict(data: dict, *, infer_missing: bool = False) -> "
      [word "def", word "from_dict", mark '(', word "data", mark ':', word "dict", mark ',', mark '*',
        mark ',', word "infer_missing", mark ':', word "bool", mark '=', word "False", mark ')',
        mark '-', mark '>'] := shut_ofList rfl rfl

set_option maxRecDepth 1000 in
theorem line_return :
    lexis.Line "        return variants[tag].from_dict(data, infer_missing=infer_missing)"
      [word "return", word "variants", mark '[', word "tag", mark ']', mark '.', word "from_dict",
        mark '(', word "data", mark ',', word "infer_missing", mark '=', word "infer_missing",
        mark ')'] := line_ofList rfl rfl

theorem linesUse_unionLines (hclear : Clear names) {h : Header} (hname : h.name ∈ names.typeNames)
    (tagWire : String) {variants : List (String × String)}
    (hvariants : ∀ v ∈ variants, v.2 ∈ names.typeNames)
    (haside : Aside (docLines h.description)) :
    LinesUse (unionLines h tagWire variants) ["dataclass"] := by
  have hdata : LinesUse ["@dataclass"] ["dataclass"] :=
    ⟨[mark '@', word "dataclass"], Lexis.Line.lines (line_ofList rfl rfl), rfl⟩
  have hstatic : LinesUse ["    @staticmethod"] [] :=
    ⟨[mark '@', word "staticmethod"], Lexis.Line.lines (line_ofList rfl rfl), rfl⟩
  have hcolon : lexis.Shut ":" [mark ':'] := shut_ofList rfl rfl
  have hopen : LinesUse ["        variants = \x7b"] [] :=
    ⟨[word "variants", mark '=', mark '\x7b'], Lexis.Line.lines (line_ofList rfl rfl), rfl⟩
  have hindent : lexis.Shut "            " [] := shut_ofList rfl rfl
  have hbetween : lexis.Shut ": " [mark ':'] := shut_ofList rfl rfl
  have hcomma : lexis.Shut "," [mark ','] := shut_ofList rfl rfl
  have hclose : LinesUse ["        \x7d"] [] :=
    ⟨[mark '\x7d'], Lexis.Line.lines (line_ofList rfl rfl), rfl⟩
  have htag : lexis.Shut "        tag = data[" [word "tag", mark '=', word "data", mark '['] :=
    shut_ofList rfl rfl
  have hcheck : LinesUse ["        if tag not in variants:"] [] :=
    ⟨[word "if", word "tag", word "not", word "in", word "variants", mark ':'],
      Lexis.Line.lines (line_ofList rfl rfl), rfl⟩
  have hreturn : LinesUse ["        return variants[tag].from_dict(data, infer_missing=infer_missing)"]
      [] := ⟨_, line_return.lines, rfl⟩
  have hclass := hclear.uses_type hname
  have hfunction := Lexis.Shows.enclose shut_fromDict rfl hclass hcolon rfl
  have hkey := Lexis.Shows.enclose htag rfl (uses_quote tagWire) shut_bracket rfl
  have hbranches : LinesUse ((dispatch variants).map
      fun v => "            " ++ Text.quote v.1 ++ ": " ++ v.2 ++ ",") [] := by
    refine linesUse_map fun v hv => ?_
    have hbranch := hclear.uses_type (hvariants v (mem_dispatch hv))
    exact (((uses_quote v.1).prepend hindent rfl).between hbranch hbetween rfl).append_shut hcomma rfl
  have hplain := (hclear.types _ hname).1.plain
  have hhead := (hdata.append (linesUse_class hclass (.inl rfl))).append haside.linesUse
  have hfront := hstatic.append (hfunction.lines.append ((uses_selectedBy tagWire).lines.append hopen))
  have hback := hclose.append (hkey.lines.append (hcheck.append
    ((uses_unknownTag hplain).lines.append hreturn)))
  simpa [unionLines] using ((hhead.append hfront).append hbranches).append hback

/-- A declaration of the mapping has lines, and unless its description gets into the code they use
the names that are listed. -/
theorem exists_lines (hclear : Clear names) (hds : ∀ d ∈ ds, d.Shaped .python names) (s : Setting)
    {d : Declaration} (h : d.Shaped .python names) :
    ∃ lines, declarationLines { s with declared := Declaration.byName ds } d = .ok lines ∧
      (Aside (descriptionLines d) →
        LinesUse lines (declarationUses (Declaration.byName ds) d)) := by
  cases h with
  | @struct header fields hname hfields additional =>
    have hbase : ∀ u ∈ (none : Option String), u ∈ names.typeNames := by simp
    obtain ⟨lines, hlines, huses⟩ := exists_classLines hclear hds hname
      (fun f hf => suits_of_shaped (hfields f hf)) hbase
    exact ⟨lines, hlines, huses⟩
  | @branch header fields b tagName hname hunion htag hfields additional =>
    have hbase : ∀ u ∈ some b.union, u ∈ names.typeNames := by simpa using hunion
    obtain ⟨lines, hlines, huses⟩ := exists_classLines hclear hds hname
      (List.forall_mem_cons.2 ⟨suits_tag htag, fun f hf => suits_of_shaped (hfields f hf)⟩) hbase
    exact ⟨lines, hlines, huses⟩
  | @enum header members hname hmembers _ =>
    exact ⟨_, rfl, linesUse_enumLines hclear hname hmembers⟩
  | @union header variants hname tagName tagWire hvariants _ =>
    exact ⟨_, rfl, linesUse_unionLines hclear hname tagWire hvariants⟩
  | @synonym header t hname ht =>
    obtain ⟨type, htype, huses⟩ := uses_renderType hclear ht
    refine ⟨_, bind_eq_ok.2 ⟨type, htype, rfl⟩, fun haside => haside.linesUse.append ?_⟩
    have hword : lexis.Shut "type " [word "type"] := shut_ofList rfl rfl
    exact (((hclear.uses_type hname).prepend hword rfl).between huses shut_equals rfl).lines

theorem exists_text (hclear : Clear names) (hds : ∀ d ∈ ds, d.Shaped .python names) (s : Setting)
    {d : Declaration} (h : d.Shaped .python names) :
    ∃ text, python.renderDeclaration { s with declared := Declaration.byName ds } d = .ok text ∧
      (Aside (descriptionLines d) → denoted imported? (lexis.lexemes text) =
        declarationUses (Declaration.byName ds) d) := by
  obtain ⟨lines, hlines, huses⟩ := exists_lines hclear hds s h
  refine ⟨layout lines, bind_eq_ok.2 ⟨lines, hlines, rfl⟩, fun haside => ?_⟩
  obtain ⟨ts, hall, hts⟩ := huses haside
  rw [Lexis.lexemes_layout hall]
  exact hts

end

end Target.Python

end Typegen
