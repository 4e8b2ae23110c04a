import Typegen.Proofs.Initials
import Typegen.Proofs.JavaCode

/-!
# Imported classes in Java

`classOf?` tells which class of another package a word of a declaration stands for.  No name of the
table stands for one (`Clear`), so that the classes which a declaration uses are those of its
annotations and its types (`mem_denoted_declaration`).  These are the classes that its file imports.
-/

namespace Typegen.Target.Java

open Lexeme (word mark quoted)

/-- The classes of the library that are used, by the names that they are used by. -/
def libraryClasses : List (String × String) :=
  [("List", "java.util.List"), ("Map", "java.util.Map"),
    ("OffsetDateTime", "java.time.OffsetDateTime")]

/-- The class of another package that a word stands for: an annotation or a class of the library. -/
def classOf? (word : String) : Option String :=
  match word.toList with
  | '@' :: name => some (annotationClass (String.ofList name))
  | _ => libraryClasses.lookup word

theorem classOf?_eq_none {name : String} (h : Text.isPlainIdentifier name.toList = true)
    (hlibrary : name ∉ libraryClasses.map Prod.fst) : classOf? name = none := by
  unfold classOf?
  split
  · next hsign =>
    rw [hsign] at h
    cases h
  · refine List.lookup_eq_none_iff.2 fun e he => ?_
    have hne : name ≠ e.1 := fun heq => hlibrary (heq ▸ List.mem_map_of_mem he)
    simpa using hne

/-- A table none of whose names stands for a class of another package. -/
structure Clear (names : Naming.Table) : Prop where
  types : ∀ id ∈ names.typeNames, classOf? id = none
  fields : ∀ id ∈ names.fieldNames, classOf? id = none
  members : ∀ id ∈ names.allMembers, classOf? id = none

theorem clear_of_assign {schema : Schema} {rootName : Json} {names : Naming.Table}
    (hplain : names.Plain) (h : Naming.assign rules schema rootName = .ok names) : Clear names := by
  have hreserved : libraryClasses.map Prod.fst ⊆ rules.reserved.words := by decide
  refine ⟨fun id hid => ?_, fun id hid => ?_, fun id hid => ?_⟩
  · have hfree := (Naming.claimsType_of_mem_typeNames h id hid).notMem_reserved
    exact classOf?_eq_none (hplain.types id hid) fun hmem => hfree (hreserved hmem)
  · -- A field begins with a small letter or an underscore, and a class with a capital.
    refine classOf?_eq_none (hplain.fields id hid) fun hmem => ?_
    have hbegins : Naming.Begins (fun c => !Text.isCapital c) id := by
      refine (Naming.claimsField_of_mem_fieldNames h id hid).begins
        (Naming.spellsLegally_rules .java) rfl ?_ fun c hc => ?_
      · rintro _ ⟨⟩
        rfl
      · simpa using Text.isCapital_eq_false_of_isSmall hc
    have hcapitals : (libraryClasses.map Prod.fst).all
        (fun name => !name.toList.head?.any fun c => !Text.isCapital c) = true := by decide
    have hcapital := List.all_eq_true.1 hcapitals id hmem
    rw [Naming.Begins] at hbegins
    simp [hbegins] at hcapital
  · have hfree := (Naming.claimsMember_of_mem_allMembers h id hid).notMem_reserved
    exact classOf?_eq_none (hplain.members id hid) fun hmem => hfree (hreserved hmem)

section

variable {names : Naming.Table} {c : String}

theorem denoted_own (hclear : Clear names) {t : TypeExpr}
    (h : t.Formed .java (· ∈ names.typeNames)) :
    denoted classOf? (lexemeStyle.own t) = (libraryClass? t).toList := by
  cases h with
  | primitive p notes =>
    change denoted classOf? [word (java.spelling p)] = _
    cases p <;> rfl
  | named hid => exact denoted_cons_word (hclear.types _ hid)
  | any | literal | array | map | optional => rfl

theorem mem_denoted_type (hclear : Clear names) {t : TypeExpr}
    (h : t.Formed .java (· ∈ names.typeNames)) :
    c ∈ denoted classOf? (t.lexemes lexemeStyle) ↔ c ∈ t.walk.filterMap libraryClass? := by
  rw [TypeExpr.mem_denoted_lexemes, List.mem_filterMap]
  refine exists_congr fun e => and_congr_right fun he => ?_
  rw [denoted_own hclear (h.of_mem_walk e he), Option.mem_toList]

theorem mem_denoted_fieldType (hclear : Clear names) {f : Field} (h : f.Shaped .java names) :
    c ∈ denoted classOf? (fieldTypeLexemes f) ↔ c ∈ f.type.walk.filterMap libraryClass? := by
  unfold fieldTypeLexemes
  split
  · next hkind =>
    -- Boxes are classes of the language, so a type without its box uses the same classes.
    have htype := h.type
    cases hf : f.type with
    | mk kind name args absent null definition byReference notes =>
      rw [hf] at htype hkind
      subst hkind
      cases htype with
      | primitive p =>
        have hsame : denoted classOf? [word (unboxed (java.spelling p))] =
            (libraryClass? (.primitive (java.spelling p) notes)).toList := by
          cases p <;> rfl
        change c ∈ denoted classOf? [word (unboxed (java.spelling p))] ↔
          c ∈ [TypeExpr.primitive (java.spelling p) notes].filterMap libraryClass?
        rw [hsame, Option.mem_toList]
        simp
  · exact mem_denoted_type hclear h.type

theorem mem_denoted_field (hclear : Clear names) {f : Field} (h : f.Shaped .java names) :
    c ∈ denoted classOf? (fieldLexemes f) ↔ c = annotationClass "JsonProperty" ∨
      f.mayBeAbsent = true ∧ c = annotationClass "JsonInclude" ∨
      c ∈ f.type.walk.filterMap libraryClass? := by
  have hinclude : denoted classOf? [annotated "JsonInclude", mark '(', word "JsonInclude", mark '.',
      word "Include", mark '.', word "NON_NULL", mark ')'] = [annotationClass "JsonInclude"] := rfl
  have hproperty : denoted classOf? [annotated "JsonProperty", mark '(', quoted f.wire, mark ')',
      word "public"] = [annotationClass "JsonProperty"] := rfl
  have hname : denoted classOf? [word f.name, mark ';'] = [] :=
    denoted_cons_word (hclear.fields _ h.name.mem_fieldNames)
  rw [fieldLexemes, denoted_append, denoted_append, denoted_append, hname, hproperty, List.append_nil,
    List.mem_append, List.mem_append, mem_denoted_fieldType hclear h]
  cases f.mayBeAbsent <;> simp [hinclude, or_left_comm, or_assoc]

variable {fields : List Field} {base : Option String} {name : String} {additional : Bool}

theorem mem_denoted_fields (hclear : Clear names) (hfields : ∀ f ∈ fields, f.Shaped .java names) :
    c ∈ denoted classOf? (fields.flatMap fieldLexemes) ↔
      fields ≠ [] ∧ c = annotationClass "JsonProperty" ∨
      (∃ f ∈ fields, f.mayBeAbsent = true) ∧ c = annotationClass "JsonInclude" ∨
      ∃ f ∈ fields, c ∈ f.type.walk.filterMap libraryClass? := by
  rw [denoted_flatMap, List.mem_flatMap]
  constructor
  · rintro ⟨f, hf, hc⟩
    rcases (mem_denoted_field hclear (hfields f hf)).1 hc with hc | ⟨habsent, hc⟩ | hc
    · exact .inl ⟨List.ne_nil_of_mem hf, hc⟩
    · exact .inr (.inl ⟨⟨f, hf, habsent⟩, hc⟩)
    · exact .inr (.inr ⟨f, hf, hc⟩)
  · rintro (⟨hne, hc⟩ | ⟨⟨f, hf, habsent⟩, hc⟩ | ⟨f, hf, hc⟩)
    · obtain ⟨f, hf⟩ := List.exists_mem_of_ne_nil _ hne
      exact ⟨f, hf, (mem_denoted_field hclear (hfields f hf)).2 (.inl hc)⟩
    · exact ⟨f, hf, (mem_denoted_field hclear (hfields f hf)).2 (.inr (.inl ⟨habsent, hc⟩))⟩
    · exact ⟨f, hf, (mem_denoted_field hclear (hfields f hf)).2 (.inr (.inr hc))⟩

theorem mem_denoted_members {members : List (String × String)}
    (hmembers : ∀ m ∈ members, classOf? m.1 = none) :
    c ∈ denoted classOf? (memberLexemes members) ↔
      members ≠ [] ∧ c = annotationClass "JsonProperty" := by
  induction members with
  | nil => simp [memberLexemes]
  | cons m rest ih =>
    rw [List.forall_mem_cons] at hmembers
    cases rest with
    | nil =>
      change c ∈ annotationClass "JsonProperty" :: denoted classOf? [word m.1] ↔ _
      rw [denoted_cons_word hmembers.1]
      simp
    | cons n rest =>
      change c ∈ annotationClass "JsonProperty" ::
        denoted classOf? (word m.1 :: mark ',' :: memberLexemes (n :: rest)) ↔ _
      rw [denoted_cons_word hmembers.1, denoted_cons_mark, List.mem_cons, ih hmembers.2]
      simp

theorem denoted_superclass (hbase : ∀ b ∈ base, classOf? b = none) :
    denoted classOf? (superclassLexemes base) = [] := by
  cases base with
  | none => rfl
  | some b =>
    by_cases hb : b = ""
    · simp [superclassLexemes, nonEmpty, hb]
    · have hsome : superclassLexemes (some b) = [word "extends", word b] := by
        simp [superclassLexemes, nonEmpty, hb]
      rw [hsome]
      exact denoted_cons_word (hbase b rfl)

theorem mem_denoted_class (hname : classOf? name = none) (hbase : ∀ b ∈ base, classOf? b = none) :
    c ∈ denoted classOf? (classLexemes name fields base additional) ↔
      (additional = true ∧ c = annotationClass "JsonIgnoreProperties" ∨
        c ∈ denoted classOf? (typeNameLexemes fields base)) ∨
      c ∈ denoted classOf? ((dataFields fields).flatMap fieldLexemes) := by
  have hignore : denoted classOf? [annotated "JsonIgnoreProperties", mark '(', word "ignoreUnknown",
      mark '=', word "true", mark ')'] = [annotationClass "JsonIgnoreProperties"] := rfl
  have hclass : denoted classOf? [word "public", word "class", word name] = [] :=
    denoted_cons_word hname
  simp only [classLexemes, denoted_append, hclass, denoted_superclass hbase, denoted_cons_mark,
    denoted_nil, List.append_nil, List.mem_append]
  cases additional <;> simp [hignore]

theorem mem_annotations_struct {h : Header} :
    c ∈ (annotations (.struct h fields base additional)).map annotationClass ↔
      dataFields fields ≠ [] ∧ c = annotationClass "JsonProperty" ∨
      (∃ f ∈ fields, f.mayBeAbsent = true) ∧ c = annotationClass "JsonInclude" ∨
      additional = true ∧ c = annotationClass "JsonIgnoreProperties" ∨
      (nonEmpty base).isSome = true ∧ c = annotationClass "JsonTypeName" := by
  rw [← List.any_eq_true]
  simp only [annotations, List.map_append, List.mem_append, or_assoc]
  cases dataFields fields <;> cases fields.any (·.mayBeAbsent) <;> cases additional <;>
    cases (nonEmpty base).isSome <;> simp

theorem mem_walkTypes_struct {h : Header} :
    c ∈ (Declaration.walkTypes [.struct h fields base additional]).filterMap libraryClass? ↔
      ∃ f ∈ fields, c ∈ f.type.walk.filterMap libraryClass? := by
  simp only [Declaration.walkTypes, List.flatMap_singleton, Declaration.types, List.flatMap_map,
    List.filterMap_flatMap, List.mem_flatMap]

/-- A union uses the classes of its two annotations, whatever its variants are. -/
theorem mem_denoted_union {tagWire : String} {variants : List (String × String)}
    (hname : classOf? name = none) (hvariants : ∀ v ∈ variants, classOf? v.2 = none) :
    c ∈ denoted classOf? (unionLexemes name tagWire variants) ↔
      c = annotationClass "JsonTypeInfo" ∨ c = annotationClass "JsonSubTypes" := by
  have hfront : denoted classOf? (typeInfoLexemes ++ [quoted tagWire, mark ')',
      annotated "JsonSubTypes", mark '(', mark '\x7b']) =
      [annotationClass "JsonTypeInfo", annotationClass "JsonSubTypes"] := rfl
  have hback : denoted classOf? [mark '\x7d', mark ')', word "public", word "abstract",
      word "class", word name, mark '\x7b', mark '\x7d'] = [] := denoted_cons_word hname
  -- A variant is annotated with a class inside that of the second annotation.
  have hbranches : ∀ x ∈ denoted classOf? ((variants.map variantLexemes).intersperse
      [mark ',']).flatten, x = annotationClass "JsonSubTypes" := by
    rw [denoted, filterMap_intersperse rfl, ← List.flatMap_def]
    intro x hx
    rw [← denoted, denoted_flatMap] at hx
    obtain ⟨v, hv, hx⟩ := List.mem_flatMap.1 hx
    change x ∈ annotationClass "JsonSubTypes" :: denoted classOf? (word v.2 :: [mark '.',
      word "class", mark ')']) at hx
    rw [denoted_cons_word (hvariants v hv)] at hx
    exact List.mem_singleton.1 hx
  rw [unionLexemes, denoted_append, denoted_append, hfront, hback, List.append_nil,
    List.mem_append]
  grind

theorem mem_denoted_alias {ts : List Lexeme} (hname : classOf? name = none) :
    c ∈ denoted classOf? (aliasLexemes name ts) ↔ c = annotationClass "JsonValue" ∨
      c = annotationClass "JsonCreator" ∨ c ∈ denoted classOf? ts := by
  have hfront : denoted classOf? [word "public", word "class", word name, mark '\x7b',
      annotated "JsonValue", word "public"] = [annotationClass "JsonValue"] :=
    denoted_cons_word hname
  have hmiddle : denoted classOf? [word "value", mark ';', word "public", word name, mark '(',
      mark ')', mark '\x7b', mark '\x7d', annotated "JsonCreator", word "public", word name,
      mark '('] = [annotationClass "JsonCreator"] :=
    (denoted_cons_word hname).trans (congrArg _ (denoted_cons_word hname))
  have hback : denoted classOf? [word "value", mark ')', mark '\x7b', word "this", mark '.',
      word "value", mark '=', word "value", mark ';', mark '\x7d', mark '\x7d'] = [] := rfl
  rw [aliasLexemes, denoted_append, denoted_append, denoted_append, denoted_append, hfront,
    hmiddle, hback]
  grind

/-- The classes that a declaration uses are those of its annotations and its types. -/
theorem mem_denoted_declaration (hplain : names.Plain) (hclear : Clear names) {d : Declaration}
    (h : d.Shaped .java names) : c ∈ denoted classOf? (declarationLexemes d) ↔
      c ∈ (annotations d).map annotationClass ∨
      c ∈ (Declaration.walkTypes [d]).filterMap libraryClass? := by
  cases h with
  | @struct header fields hname hfields additional =>
    have hdata := dataFields_of_shaped hfields
    rw [declarationLexemes, mem_denoted_class (hclear.types _ hname) (by simp), hdata,
      mem_denoted_fields hclear hfields, mem_annotations_struct, mem_walkTypes_struct, hdata]
    simp only [typeNameLexemes, nonEmpty, denoted_nil, List.not_mem_nil, Option.isSome_none]
    grind
  | @branch header fields b tagName hname hunion htag hfields additional =>
    have hdata : dataFields (b.field tagName :: fields) = fields := dataFields_of_shaped hfields
    have hsome := nonEmpty_of_isPlainIdentifier (hplain.types _ hunion)
    have hbase : ∀ u ∈ some b.union, classOf? u = none := by simpa using hclear.types _ hunion
    have htypeName : denoted classOf? (typeNameLexemes (b.field tagName :: fields) (some b.union)) =
        [annotationClass "JsonTypeName"] := by
      rw [typeNameLexemes, hsome]
      rfl
    -- The tag is a literal, which is always there and uses no class.
    have habsent : (b.field tagName).mayBeAbsent = false := rfl
    have htype : (b.field tagName).type.walk.filterMap libraryClass? = [] := rfl
    rw [declarationLexemes, mem_denoted_class (hclear.types _ hname) hbase, hdata, htypeName,
      mem_denoted_fields hclear hfields, mem_annotations_struct, mem_walkTypes_struct, hdata, hsome]
    simp only [List.mem_cons, exists_eq_or_imp, habsent, htype]
    grind
  | @enum header members hname hmembers hfilled =>
    have hfront : denoted classOf? [word "public", word "enum", word header.name,
        mark '\x7b'] = [] := denoted_cons_word (hclear.types _ hname)
    have hlast : denoted classOf? [mark '\x7d'] = [] := rfl
    rw [declarationLexemes, denoted_append, denoted_append, hfront, hlast, List.nil_append,
      List.append_nil, mem_denoted_members fun m hm => hclear.members _ (hmembers m hm)]
    simp [annotations, hfilled, Declaration.walkTypes, Declaration.types]
  | @union header variants hname tagName tagWire hvariants _ =>
    rw [declarationLexemes, mem_denoted_union (hclear.types _ hname) fun v hv =>
      hclear.types _ (hvariants v hv)]
    simp only [annotations, Declaration.walkTypes, Declaration.types, List.flatMap_singleton,
      List.flatMap_nil, List.filterMap_nil, List.not_mem_nil, or_false]
    grind
  | @synonym header t hname ht =>
    rw [declarationLexemes, mem_denoted_alias (hclear.types _ hname), mem_denoted_type hclear ht]
    simp only [annotations, Declaration.walkTypes, Declaration.types, List.flatMap_singleton]
    grind

theorem mem_imports_iff (d : Declaration) : c ∈ imports [d] ↔
    c ∈ (annotations d).map annotationClass ∨
      c ∈ (Declaration.walkTypes [d]).filterMap libraryClass? := by
  simp [imports, List.mem_mergeSort, List.mem_eraseDups]

end

end Typegen.Target.Java
