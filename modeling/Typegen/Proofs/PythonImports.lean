import Typegen.Proofs.PythonCode

/-!
# Imported names in Python

`importedBy` reads an import line.  The names that the lines of a module import (`exists_imports`) are
those that its declarations use (`mem_declarationUses`), provided that there is a struct wherever
there is a union.
-/

namespace Typegen.Target.Python

open Lexeme (word mark)

/-! ## Import lines -/

/-- The names that an import line brings into a module. -/
def importedBy (line : String) : List String :=
  denoted some ((lexis.lexemes line).dropWhile (· ≠ word "import")).tail

/-- The names that some import lines bring into a module. -/
def importedIn (lines : List String) : List String := lines.flatMap importedBy

/-- An import line is read by its characters. -/
theorem importedBy_ofList {line : String} {cs : List Char} {names : List String}
    (hs : line = String.ofList cs)
    (h : denoted some ((lexis.scan .code (cs ++ ['\n'])).1.dropWhile (· ≠ word "import")).tail =
      names) : importedBy line = names := by
  rw [importedBy, Lexis.lexemes, hs, String.toList_ofList, h]

theorem importedIn_append (as bs : List String) :
    importedIn (as ++ bs) = importedIn as ++ importedIn bs := List.flatMap_append

theorem importedIn_if {b : Bool} {line : String} {names : List String}
    (h : importedBy line = names) :
    importedIn (if b then [line] else []) = if b then names else [] := by
  cases b with
  | true => exact (List.flatMap_singleton ..).trans h
  | false => rfl

/-- The empty lines between groups of import lines import nothing. -/
theorem importedIn_groups (gs : List (List String)) :
    importedIn ((gs.filter fun g => !g.isEmpty).intersperse [""]).flatten =
      gs.flatMap importedIn := by
  have hblank : importedBy "" = [] := importedBy_ofList rfl rfl
  rw [importedIn, flatMap_intersperse ((List.flatMap_singleton ..).trans hblank)]
  induction gs with
  | nil => rfl
  | cons g gs ih =>
    rw [List.flatMap_cons, ← ih]
    cases g with
    | nil => rfl
    | cons line lines =>
      rw [List.filter_cons_of_pos rfl, List.flatten_cons, List.flatMap_append]
      rfl

theorem typeName?_eq_some_iff {t : TypeExpr} {x : String} : typeName? t = some x ↔
    t.kind = .any ∧ x = "Any" ∨ t.kind = .literal ∧ x = "Literal" ∨
      (t.kind = .primitive ∧ t.name = "datetime") ∧ x = "datetime" := by
  unfold typeName?
  cases t.kind <;> simp [eq_comm]

theorem exists_typeName?_iff {ts : List TypeExpr} {x : String} :
    (∃ t ∈ ts, typeName? t = some x) ↔
      (∃ t ∈ ts, t.kind = .any) ∧ x = "Any" ∨ (∃ t ∈ ts, t.kind = .literal) ∧ x = "Literal" ∨
        (∃ t ∈ ts, t.kind = .primitive ∧ t.name = "datetime") ∧ x = "datetime" := by
  simp only [typeName?_eq_some_iff, and_or_left, exists_or, ← and_assoc, exists_and_right]

theorem importedIn_standardImports (ds : List Declaration) (needsConfig : Bool) :
    importedIn (standardImports ds needsConfig) =
      (if ds.any fun d => d.isStruct || d.isUnion then
        if needsConfig then ["dataclass", "field"] else ["dataclass"] else []) ++
      (if (Declaration.walkTypes ds).any fun t => t.kind = .primitive && t.name = "datetime" then
        ["datetime"] else []) ++
      (if ds.any (·.isEnum) then ["Enum"] else []) ++
      ((if (Declaration.walkTypes ds).any fun t => t.kind = .any then ["Any"] else []) ++
        if (Declaration.walkTypes ds).any fun t => t.kind = .literal then ["Literal"] else []) := by
  have hdata : importedBy ("from dataclasses import dataclass" ++
      if needsConfig then ", field" else "") =
      if needsConfig then ["dataclass", "field"] else ["dataclass"] := by
    have hplain : importedBy "from dataclasses import dataclass" = ["dataclass"] :=
      importedBy_ofList rfl rfl
    have hboth : importedBy "from dataclasses import dataclass, field" = ["dataclass", "field"] :=
      importedBy_ofList rfl rfl
    cases needsConfig with
    | true => exact hboth
    | false => exact hplain
  have htime : importedBy "from datetime import datetime" = ["datetime"] := importedBy_ofList rfl rfl
  have henum : importedBy "from enum import Enum" = ["Enum"] := importedBy_ofList rfl rfl
  have htyping (any literal : Bool) :
      importedIn (if ((if any then ["Any"] else []) ++
          if literal then ["Literal"] else []).isEmpty then []
        else ["from typing import " ++ ", ".intercalate
          ((if any then ["Any"] else []) ++ if literal then ["Literal"] else [])]) =
      (if any then ["Any"] else []) ++ if literal then ["Literal"] else [] := by
    have hany : importedBy "from typing import Any" = ["Any"] := importedBy_ofList rfl rfl
    have hliteral : importedBy "from typing import Literal" = ["Literal"] := importedBy_ofList rfl rfl
    have hboth : importedBy "from typing import Any, Literal" = ["Any", "Literal"] :=
      importedBy_ofList rfl rfl
    cases any <;> cases literal
    · rfl
    · exact (List.flatMap_singleton ..).trans hliteral
    · exact (List.flatMap_singleton ..).trans hany
    · exact (List.flatMap_singleton ..).trans hboth
  simp only [standardImports, importedIn_append, importedIn_if hdata, importedIn_if htime,
    importedIn_if henum, htyping]

/-! ## Needed names -/

/-- A check that fails for no item tells whether some item satisfies it. -/
theorem exists_anyM {α : Type} {check : α → Except Failure Bool} {as : List α}
    (h : ∀ a ∈ as, ∃ b, check a = .ok b) :
    ∃ b, anyM check as = .ok b ∧ (b = true ↔ ∃ a ∈ as, check a = .ok true) := by
  induction as with
  | nil => exact ⟨false, rfl, by simp⟩
  | cons a as ih =>
    rw [List.forall_mem_cons] at h
    obtain ⟨b, hb⟩ := h.1
    obtain ⟨rest, hrest, hiff⟩ := ih h.2
    cases b with
    | true => exact ⟨true, by rw [anyM, hb]; rfl, by simp [hb]⟩
    | false => exact ⟨rest, by rw [anyM, hb]; exact hrest, by simp [hb, hiff]⟩

variable {ds : List Declaration}

/-- Whether fields carry metadata is known once their decoders are. -/
theorem exists_hasMetadata_of_fieldDecoder (h : ∀ d ∈ ds, ∀ f : Field, f.type ∈ d.types →
      ∃ decoder, fieldDecoder (Declaration.byName ds) f = .ok decoder) :
    ∀ f ∈ ds.flatMap (·.fields), ∃ b, hasMetadata (Declaration.byName ds) f = .ok b := by
  intro f hf
  obtain ⟨d, hd, hf⟩ := List.mem_flatMap.1 hf
  have htype : f.type ∈ d.types := by
    cases d with
    | struct => exact List.mem_map_of_mem hf
    | enum | union | synonym => cases hf
  obtain ⟨decoder, hdecoder⟩ := h d hd f htype
  unfold hasMetadata
  split
  · exact ⟨true, rfl⟩
  · exact ⟨_, bind_eq_ok.2 ⟨decoder, hdecoder, rfl⟩⟩

/-- Some declarations need a name that a module may import. -/
def Needs (ds : List Declaration) (x : String) : Prop :=
  (∃ d ∈ ds, d.isStruct = true ∨ d.isUnion = true) ∧ (x = "dataclass" ∨ x = "dataclass_json") ∨
  (∃ f ∈ ds.flatMap (·.fields), hasMetadata (Declaration.byName ds) f = .ok true) ∧
    (x = "field" ∨ x = "config") ∨
  (∃ d ∈ ds, d.isEnum = true) ∧ x = "Enum" ∨
  ∃ t ∈ Declaration.walkTypes ds, typeName? t = some x

theorem mem_fields_isStruct {f : Field} (h : f ∈ ds.flatMap (·.fields)) :
    ∃ d ∈ ds, d.isStruct = true := by
  obtain ⟨d, hd, hf⟩ := List.mem_flatMap.1 h
  refine ⟨d, hd, ?_⟩
  cases d with
  | struct => rfl
  | enum | union | synonym => cases hf

/-- The names that the lines of a module import. -/
theorem importedIn_imports {needsConfig : Bool}
    (hconfig : anyM (hasMetadata (Declaration.byName ds)) (ds.flatMap (·.fields)) = .ok needsConfig) :
    ∃ lines, imports ds = .ok lines ∧ importedIn lines =
      "annotations" :: (importedIn (standardImports ds needsConfig) ++
        if ds.any fun d => d.isStruct || d.isUnion then
          if needsConfig then ["config", "dataclass_json"] else ["dataclass_json"] else []) := by
  have hfuture : importedIn ["from __future__ import annotations"] = ["annotations"] :=
    (List.flatMap_singleton ..).trans (importedBy_ofList rfl rfl)
  have hlibrary : importedBy ("from dataclasses_json import " ++
      (if needsConfig then "config, " else "") ++ "dataclass_json") =
      if needsConfig then ["config", "dataclass_json"] else ["dataclass_json"] := by
    have hplain : importedBy "from dataclasses_json import dataclass_json" = ["dataclass_json"] :=
      importedBy_ofList rfl rfl
    have hboth : importedBy "from dataclasses_json import config, dataclass_json" =
        ["config", "dataclass_json"] := importedBy_ofList rfl rfl
    cases needsConfig with
    | true => exact hboth
    | false => exact hplain
  refine ⟨_, bind_eq_ok.2 ⟨needsConfig, hconfig, rfl⟩, ?_⟩
  simp only [importedIn_groups, List.flatMap_cons, List.flatMap_nil, hfuture, importedIn_if hlibrary,
    List.append_nil, List.singleton_append]

/-- A module imports the names that its declarations need. -/
theorem exists_imports
    (h : ∀ f ∈ ds.flatMap (·.fields), ∃ b, hasMetadata (Declaration.byName ds) f = .ok b) :
    ∃ lines, imports ds = .ok lines ∧
      ∀ x ∈ importedNames, (x ∈ importedIn lines ↔ Needs ds x) := by
  obtain ⟨needsConfig, hany, hconfig⟩ := exists_anyM h
  obtain ⟨lines, hlines, himported⟩ := importedIn_imports hany
  refine ⟨lines, hlines, fun x hx => ?_⟩
  have hannotations : x ≠ "annotations" := by
    rintro rfl
    exact absurd hx (by decide)
  have hstruct : needsConfig = true → ∃ d ∈ ds, d.isStruct = true ∨ d.isUnion = true := by
    intro hneeds
    obtain ⟨f, hf, -⟩ := hconfig.1 hneeds
    obtain ⟨d, hd, hstruct⟩ := mem_fields_isStruct hf
    exact ⟨d, hd, .inl hstruct⟩
  rw [Needs, exists_typeName?_iff, ← hconfig, himported, importedIn_standardImports]
  simp only [List.mem_cons, List.mem_append, List.mem_ite_nil_right, List.any_eq_true,
    Bool.or_eq_true, Bool.and_eq_true, decide_eq_true_eq, List.not_mem_nil]
  generalize (∃ d ∈ ds, d.isStruct = true ∨ d.isUnion = true) = classes at hstruct ⊢
  cases needsConfig <;> grind

/-- A module imports no name that the rules do not know of, but for the annotations of the future. -/
theorem importedIn_subset {lines : List String} (h : imports ds = .ok lines) :
    importedIn lines ⊆ "annotations" :: importedNames := by
  obtain ⟨needsConfig, hconfig, -⟩ := bind_eq_ok.1 h
  obtain ⟨lines', hlines', himported⟩ := importedIn_imports hconfig
  obtain rfl := Except.ok.inj (h.symm.trans hlines')
  rw [himported, importedIn_standardImports]
  simp only [List.subset_def, List.mem_cons, List.mem_append, List.mem_ite_nil_right]
  cases needsConfig <;> grind [importedNames]

/-! ## Used names -/

section

variable {names : Naming.Table} {declared : Declared} {x : String}

theorem mem_metadataUses {f : Field} : x ∈ metadataUses declared f ↔
    hasMetadata declared f = .ok true ∧ (x = "field" ∨ x = "config") := by
  unfold metadataUses
  split
  · next h => simp [h]
  · next h =>
    refine ⟨fun hx => ?_, fun hx => absurd hx.1 h⟩
    cases hx

theorem mem_declarationUses (hclear : Clear names) {d : Declaration} (h : d.Shaped .python names) :
    x ∈ declarationUses declared d ↔
      d.isStruct = true ∧ (x = "dataclass" ∨ x = "dataclass_json") ∨
      d.isUnion = true ∧ x = "dataclass" ∨
      (∃ f ∈ d.fields, hasMetadata declared f = .ok true) ∧ (x = "field" ∨ x = "config") ∨
      d.isEnum = true ∧ x = "Enum" ∨
      ∃ t ∈ d.types.flatMap (·.walk), typeName? t = some x := by
  have htypes := h.types
  cases d with
  | struct header fields base additional =>
    have huses : ∀ f ∈ fields, (x ∈ fieldUses declared f ↔
        (∃ t ∈ f.type.walk, typeName? t = some x) ∨
        hasMetadata declared f = .ok true ∧ (x = "field" ∨ x = "config")) := by
      intro f hf
      rw [fieldUses, List.mem_append, mem_metadataUses,
        mem_typeUses hclear (htypes _ (List.mem_map_of_mem hf))]
    rw [declarationUses, List.mem_append, List.mem_flatMap]
    constructor
    · rintro (hx | ⟨f, hf, hx⟩)
      · exact .inl ⟨rfl, by simpa [or_comm] using hx⟩
      · rw [mem_orderedFields] at hf
        rcases (huses f hf).1 hx with ⟨t, ht, hname⟩ | ⟨hmetadata, hx⟩
        · refine .inr (.inr (.inr (.inr ⟨t, ?_, hname⟩)))
          exact List.mem_flatMap.2 ⟨f.type, List.mem_map_of_mem hf, ht⟩
        · exact .inr (.inr (.inl ⟨⟨f, hf, hmetadata⟩, hx⟩))
    · rintro (⟨-, hx⟩ | ⟨hunion, -⟩ | ⟨⟨f, hf, hmetadata⟩, hx⟩ | ⟨henum, -⟩ | ⟨t, ht, hname⟩)
      · exact .inl (by simpa [or_comm] using hx)
      · cases hunion
      · exact .inr ⟨f, mem_orderedFields.2 hf, (huses f hf).2 (.inr ⟨hmetadata, hx⟩)⟩
      · cases henum
      · obtain ⟨type, htype, ht⟩ := List.mem_flatMap.1 ht
        obtain ⟨f, hf, rfl⟩ := List.mem_map.1 htype
        exact .inr ⟨f, mem_orderedFields.2 hf, (huses f hf).2 (.inl ⟨t, ht, hname⟩)⟩
  | enum | union =>
    simp [declarationUses, Declaration.isStruct, Declaration.isUnion, Declaration.isEnum,
      Declaration.fields, Declaration.types]
  | synonym header target =>
    rw [declarationUses, mem_typeUses hclear (htypes target (List.mem_singleton_self _))]
    simp [Declaration.isStruct, Declaration.isUnion, Declaration.isEnum, Declaration.fields,
      Declaration.types]

/-- The names that some declarations use are those that they need. -/
theorem exists_mem_declarationUses_iff (hclear : Clear names) {ds : List Declaration}
    (hds : ∀ d ∈ ds, d.Shaped .python names)
    (hunion : ∀ d ∈ ds, d.isUnion = true → ∃ d' ∈ ds, d'.isStruct = true) :
    (∃ d ∈ ds, x ∈ declarationUses (Declaration.byName ds) d) ↔ Needs ds x := by
  have huses : ∀ d ∈ ds, _ := fun d hd =>
    @mem_declarationUses names (Declaration.byName ds) x hclear d (hds d hd)
  constructor
  · rintro ⟨d, hd, hx⟩
    rcases (huses d hd).1 hx with ⟨hstruct, hx⟩ | ⟨hunion, hx⟩ | ⟨⟨f, hf, hmetadata⟩, hx⟩ |
      ⟨henum, hx⟩ | ⟨t, ht, hname⟩
    · exact .inl ⟨⟨d, hd, .inl hstruct⟩, hx⟩
    · exact .inl ⟨⟨d, hd, .inr hunion⟩, .inl hx⟩
    · exact .inr (.inl ⟨⟨f, List.mem_flatMap.2 ⟨d, hd, hf⟩, hmetadata⟩, hx⟩)
    · exact .inr (.inr (.inl ⟨⟨d, hd, henum⟩, hx⟩))
    · exact .inr (.inr (.inr ⟨t, List.mem_flatMap.2 ⟨d, hd, ht⟩, hname⟩))
  · rintro (⟨⟨d, hd, hclass⟩, hx⟩ | ⟨⟨f, hf, hmetadata⟩, hx⟩ | ⟨⟨d, hd, henum⟩, hx⟩ |
      ⟨t, ht, hname⟩)
    · obtain ⟨d, hd, hstruct⟩ : ∃ d' ∈ ds, d'.isStruct = true :=
        hclass.elim (fun hstruct => ⟨d, hd, hstruct⟩) (hunion d hd)
      exact ⟨d, hd, (huses d hd).2 (.inl ⟨hstruct, hx⟩)⟩
    · obtain ⟨d, hd, hf⟩ := List.mem_flatMap.1 hf
      exact ⟨d, hd, (huses d hd).2 (.inr (.inr (.inl ⟨⟨f, hf, hmetadata⟩, hx⟩)))⟩
    · exact ⟨d, hd, (huses d hd).2 (.inr (.inr (.inr (.inl ⟨henum, hx⟩))))⟩
    · obtain ⟨d, hd, ht⟩ := List.mem_flatMap.1 ht
      exact ⟨d, hd, (huses d hd).2 (.inr (.inr (.inr (.inr ⟨t, ht, hname⟩))))⟩

end

end Typegen.Target.Python
