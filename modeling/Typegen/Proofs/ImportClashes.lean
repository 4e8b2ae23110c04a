import Typegen.Proofs.AskedNames
import Typegen.Proofs.JavaImports
import Typegen.Proofs.PythonImports

/-!
# Imported names and names of types

A file imports classes and functions, and a type that has the name of one of them hides it or is hidden
by it.  In Python all names that are imported are reserved.  In Java the classes of the library are, and
the annotation classes are not: a type gets the name of one just when a place asks for that name
(`typeNames_and_imports`).
-/

namespace Typegen.Target

namespace Java

/-- The annotation classes that a declaration can need. -/
def annotationNames : List String :=
  ["JsonProperty", "JsonInclude", "JsonIgnoreProperties", "JsonTypeName", "JsonSubTypes",
    "JsonTypeInfo", "JsonCreator", "JsonValue"]

/-- The name of a class without its package. -/
def simpleName (c : String) : String :=
  String.ofList (c.toList.reverse.takeWhile (· ≠ '.')).reverse

theorem simpleName_append {package name : String} (h : '.' ∉ name.toList) :
    simpleName (package ++ "." ++ name) = name := by
  have hname : ∀ c ∈ name.toList.reverse, decide (c ≠ '.') = true := by
    intro c hc
    simpa using ne_of_mem_of_not_mem (List.mem_reverse.1 hc) h
  rw [simpleName, String.toList_append, String.toList_append, List.reverse_append,
    List.takeWhile_append_of_pos hname, List.reverse_append]
  simp

theorem annotations_subset (d : Declaration) : annotations d ⊆ annotationNames := by
  cases d with
  | struct header fields base additional =>
    intro a ha
    simp only [annotations, List.mem_append, List.mem_ite_nil_left, List.mem_ite_nil_right,
      List.mem_singleton] at ha
    rcases ha with ((⟨-, rfl⟩ | ⟨-, rfl⟩) | ⟨-, rfl⟩) | ⟨-, rfl⟩ <;> decide
  | enum => exact show ["JsonProperty"] ⊆ annotationNames by decide
  | union => exact show ["JsonSubTypes", "JsonTypeInfo"] ⊆ annotationNames by decide
  | synonym => exact show ["JsonCreator", "JsonValue"] ⊆ annotationNames by decide

/-- What is imported is an annotation class or a class of the library. -/
theorem simpleName_of_mem_imports {ds : List Declaration} {c : String} (h : c ∈ imports ds) :
    simpleName c ∈ annotationNames ∨ simpleName c ∈ libraryClasses.map Prod.fst := by
  rw [imports, List.mem_mergeSort, List.mem_eraseDups, List.mem_append] at h
  rcases h with h | h
  · obtain ⟨a, ha, rfl⟩ := List.mem_map.1 h
    obtain ⟨d, -, ha⟩ := List.mem_flatMap.1 ha
    have hmem := annotations_subset d ha
    have hdots : ∀ a ∈ annotationNames, '.' ∉ a.toList := by decide
    have hclass : annotationClass a = "com.fasterxml.jackson.annotation" ++ "." ++ a := rfl
    rw [hclass, simpleName_append (hdots a hmem)]
    exact .inl hmem
  · obtain ⟨t, -, ht⟩ := List.mem_filterMap.1 h
    have hclasses : ∀ c ∈ ["java.util.List", "java.util.Map", "java.time.OffsetDateTime"],
        simpleName c ∈ libraryClasses.map Prod.fst := by decide
    refine .inr (hclasses c ?_)
    unfold libraryClass? at ht
    split at ht
    · cases ht; simp
    · cases ht; simp
    · split at ht
      · cases ht; simp
      · cases ht
    · cases ht

theorem unmarked_of_mem_annotationNames {a : String} (h : a ∈ annotationNames) :
    Naming.Unmarked "_" a := by
  have hall : ∀ a ∈ annotationNames, a.toList.getLast?.any
      (fun c => c ≠ '_' && !Text.isDigit c) = true := by decide
  have hlast := hall a h
  cases hc : a.toList.getLast? with
  | none =>
    rw [hc] at hlast
    cases hlast
  | some c =>
    rw [hc] at hlast
    simp only [Option.any_some, Bool.and_eq_true, decide_eq_true_eq, Bool.not_eq_true'] at hlast
    exact Naming.unmarked_of_getLast? hc hlast.1 hlast.2

end Java

/-- No type in Python has the name of something that is imported.  In Java one has, just when a place
asks for the name of an annotation class. -/
theorem typeNames_and_imports {schema : Schema} {rootName : Json} {names : Naming.Table} :
    (Naming.assign Python.rules schema rootName = .ok names → ∀ ds lines,
      Python.imports ds = .ok lines → ∀ x ∈ Python.importedIn lines, x ∉ names.typeNames) ∧
    (Naming.assign Java.rules schema rootName = .ok names →
      ∃ text, Java.rules.rootText rootName = .ok text ∧ ∀ ds, ∀ c ∈ Java.imports ds,
        (Java.simpleName c ∈ names.typeNames ↔ Java.simpleName c ∈ Java.annotationNames ∧
          ∃ segments ∈ Naming.askedNames (schema.definitions ++ [(text, schema.root)]),
            Java.rules.typeIdentifier segments = .ok (Java.simpleName c))) := by
  constructor
  · intro hassign ds lines hlines x hx hmem
    obtain ⟨hclass, himported⟩ := (Python.clear_of_assign hassign).types x hmem
    rcases List.mem_cons.1 (Python.importedIn_subset hlines hx) with rfl | hx
    · exact absurd hclass.head (by decide)
    · exact himported hx
  · intro hassign
    have hsuffix : Java.rules.escapeSuffix = .string "_" := rfl
    obtain ⟨text, htext, htypes⟩ := Naming.Table.mem_typeNames_iff rfl rfl hsuffix hassign
    refine ⟨text, htext, fun ds c hc => ?_⟩
    have hlibrary : Java.libraryClasses.map Prod.fst ⊆ Java.rules.reserved.words := by decide
    have hapart : ∀ a ∈ Java.annotationNames, a ∉ Java.rules.reserved.words := by decide
    rcases Java.simpleName_of_mem_imports hc with hannotation | hclass
    · rw [htypes _ (Java.unmarked_of_mem_annotationNames hannotation) (hapart _ hannotation)]
      exact (and_iff_right hannotation).symm
    · refine iff_of_false (fun hmem => ?_) fun h => hapart _ h.1 (hlibrary hclass)
      exact (Naming.claimsType_of_mem_typeNames hassign _ hmem).notMem_reserved (hlibrary hclass)

/-- A document with an enumeration that is called like an annotation class. -/
def annotationDocument : Json := .object [
  ("definitions", .object [("json_property", .object [("enum", .array [.string "a"])])])]

/-- The nodes of the document. -/
def annotationSchema : Schema where
  definitions := [("json_property",
    .enum ⟨⟨["definitions", "json_property"]⟩, false, some "json_property", []⟩ ["a"])]
  root := .empty ⟨.root, false, none, []⟩

/-- The names of the schema. -/
def annotationTable : Naming.Table where
  root := "Root"
  definitions := [("json_property", "JsonProperty")]
  nodes := [(⟨["definitions", "json_property"]⟩, .enum "JsonProperty" [("a", "A")])]

/-- The declaration of the enumeration. -/
def annotationEnum : Declaration :=
  .enum { name := "JsonProperty", path := "#/definitions/json_property" } [("A", "a")]

theorem typeNames_and_imports_annotation :
    Naming.assign Python.rules annotationSchema (.string "Root") = .ok annotationTable ∧
    Naming.assign Java.rules annotationSchema (.string "Root") = .ok annotationTable ∧
    (∃ lines, Python.imports [annotationEnum] = .ok lines ∧
      ∀ x ∈ Python.importedIn lines, x ∉ annotationTable.typeNames) ∧
    (Java.simpleName "com.fasterxml.jackson.annotation.JsonProperty" ∈ annotationTable.typeNames ↔
      Java.simpleName "com.fasterxml.jackson.annotation.JsonProperty" ∈ Java.annotationNames ∧
      ∃ segments ∈ Naming.askedNames
          (annotationSchema.definitions ++ [("Root", annotationSchema.root)]),
        Java.rules.typeIdentifier segments =
          .ok (Java.simpleName "com.fasterxml.jackson.annotation.JsonProperty")) := by
  have hpython : Naming.assign Python.rules annotationSchema (.string "Root") =
      .ok annotationTable := by with_unfolding_all rfl
  have hjava : Naming.assign Java.rules annotationSchema (.string "Root") =
      .ok annotationTable := by with_unfolding_all rfl
  obtain ⟨lines, hlines⟩ : ∃ lines, Python.imports [annotationEnum] = .ok lines := ⟨_, rfl⟩
  obtain ⟨text, htext, hiff⟩ := typeNames_and_imports.2 hjava
  obtain rfl := Except.ok.inj htext
  exact ⟨hpython, hjava, ⟨lines, hlines, typeNames_and_imports.1 hpython _ lines hlines⟩,
    hiff [annotationEnum] _ (by rw [Java.mem_imports_iff]; decide)⟩

/-- The file of the enumeration imports another class of the same name. -/
theorem typeNames_meet_imports :
    Schema.resolve annotationDocument = .ok annotationSchema ∧
    Naming.assign Java.rules annotationSchema (.string "Root") = .ok annotationTable ∧
    (∃ m, mapSchema java.backend annotationTable annotationSchema (.ofSchema annotationSchema) =
      .ok m ∧ annotationEnum ∈ m.declarations) ∧
    annotationEnum.name = "JsonProperty" ∧
    Java.imports [annotationEnum] = ["com.fasterxml.jackson.annotation.JsonProperty"] ∧
    Java.simpleName "com.fasterxml.jackson.annotation.JsonProperty" = "JsonProperty" ∧
    "JsonProperty" ∈ annotationTable.typeNames := by
  refine ⟨by with_unfolding_all rfl, by with_unfolding_all rfl, ⟨_, rfl, .head _⟩, rfl,
    ?_, ?_, by decide⟩
  · with_unfolding_all rfl
  · decide

end Typegen.Target
