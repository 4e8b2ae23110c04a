import Typegen.Proofs.AskedNames
import Typegen.Proofs.PascalCase
import Typegen.Proofs.Rendered
import Typegen.Proofs.Results

/-!
# Root types that are named after files

A run that is given no name for the root type takes that of the file, in Pascal case.  Every target
puts it into Pascal case once more, so the root type has this name just when no two words in the name
of the file merge (`root_named_after_file`).
-/

namespace Typegen.Naming

/-! ## The root of a schema without definitions -/

theorem Rules.typeIdentifier_singleton {r : Rules} (hcase : r.typeCase = .pascal)
    (hseparator : r.separator = .concatenate) {name : String}
    (h : Begins (fun c => !Text.isDigit c) (Text.Case.pascal.convert name)) :
    r.typeIdentifier [name] = .ok (Text.Case.pascal.convert name) := by
  have htext : r.typeText [name] = Text.Case.pascal.convert name := by
    rw [typeText, hseparator, hcase]
    rfl
  obtain ⟨c, cs, hchars, hc⟩ := h.exists_cons
  have hne : Text.Case.pascal.convert name ≠ "" := by
    intro hempty
    rw [hempty] at hchars
    cases hchars
  rw [Bool.not_eq_true'] at hc
  rw [typeIdentifier, htext, hcase]
  simp [finish, hne, hchars, hc]

/-- In a schema without definitions the root is named first, so nothing but a reserved word is in the
way of its name. -/
theorem root_of_assign {r : Rules} (hlimit : r.maxLength = .null) {suffix : String}
    (hsuffix : r.escapeSuffix = .string suffix) (hfree : ∀ raw, raw ++ suffix ∉ r.reserved.words)
    {schema : Schema} (hdefinitions : schema.definitions = []) {name raw : String}
    (hraw : r.typeIdentifier [name] = .ok raw) {t : Table}
    (h : assign r schema (.string name) = .ok t) :
    t.root = if raw ∈ r.reserved.words then raw ++ suffix else raw := by
  simp only [assign, bind_eq_ok, pure_eq_ok] at h
  obtain ⟨⟨ids, nodes, types⟩, hnone, text, htext, ⟨id, others, left⟩, hbody, rfl⟩ := h
  rw [hdefinitions] at hnone
  cases hnone
  cases htext
  simp only [nameBody, bind_eq_ok, pure_eq_ok, Prod.mk.injEq] at hbody
  obtain ⟨raw', hraw', ⟨id', types⟩, hclaim, -, -, rfl, -⟩ := hbody
  obtain rfl := Except.ok.inj (hraw.symm.trans hraw')
  have hunused : (r.freshNames r.reserved).isFree
      (if r.reserved.words.contains raw then raw ++ suffix else raw) = true := by
    refine Namespace.isFree_iff.2 ⟨List.not_mem_nil, ?_⟩
    split
    · exact hfree raw
    · next hraw => simpa [Rules.freshNames] using hraw
  simpa [Rules.freshNames] using Namespace.eq_of_claim hlimit hsuffix hclaim hunused

end Typegen.Naming

namespace Typegen.Text

/-- A text in Pascal case that does not begin with a digit begins with a capital, which stays when the
text is put into Pascal case once more. -/
theorem begins_convert_convert {s : String}
    (h : Naming.Begins (fun c => !isDigit c) (Case.pascal.convert s)) :
    Naming.Begins (fun c => !isDigit c) (Case.pascal.convert (Case.pascal.convert s)) := by
  obtain ⟨c, cs, hchars, hc⟩ := h.exists_cons
  rw [Bool.not_eq_true'] at hc
  have hcapital : isCapital c = true := by
    have hhead : (toPascal s.toList).head? = some c := by
      rw [show toPascal s.toList = (Case.pascal.convert s).toList from String.toList_ofList.symm,
        hchars]
      rfl
    simpa [hc] using head_toPascal hhead
  have hword : isWordChar c = true := by simp [isWordChar, hcapital]
  rw [Naming.Begins, Case.convert, String.toList_ofList, hchars, Case.convertChars,
    head?_toPascal hword, toCapital_of_isCapital hcapital]
  simp [hc]

end Typegen.Text

namespace Typegen.Naming

/-- No reserved word ends with an underscore. -/
theorem append_underscore_notMem_reserved (target : Target) (raw : String) :
    raw ++ "_" ∉ target.rules.reserved.words := by
  -- The bytes of a word are found faster than its characters.
  have hlast : ∀ w ∈ target.rules.reserved.words, w.toByteArray.data.toList.getLast? ≠ some 95 := by
    cases target <;> decide +kernel
  refine fun hmem => hlast _ hmem ?_
  have hbytes : "_".toByteArray.data.toList = [95] := rfl
  simp [String.toByteArray_append, hbytes]

end Typegen.Naming

namespace Typegen.Target

open Text (Case words Merges)

/-- What a target calls the root type when it is given a name: the name in Pascal case, with an
underscore behind it if that is reserved. -/
def rootFor (t : Target) (name : String) : String :=
  if Case.pascal.convert name ∈ t.rules.reserved.words then Case.pascal.convert name ++ "_"
  else Case.pascal.convert name

variable {t : Target} {stem : String}

/-- The root of a schema without definitions is called so, whatever the schema is. -/
theorem root_eq_rootFor {schema : Schema} (hdefinitions : schema.definitions = [])
    (hbegins : Naming.Begins (fun c => !Text.isDigit c) (Case.pascal.convert stem))
    {names : Naming.Table}
    (h : Naming.assign t.rules schema (.string (Case.pascal.convert stem)) = .ok names) :
    names.root = t.rootFor (Case.pascal.convert stem) := by
  have hrules : t.rules.typeCase = .pascal ∧ t.rules.separator = .concatenate ∧
      t.rules.maxLength = .null ∧ t.rules.escapeSuffix = .string "_" := by
    cases t <;> exact ⟨rfl, rfl, rfl, rfl⟩
  obtain ⟨hcase, hseparator, hlimit, hsuffix⟩ := hrules
  have hraw := Naming.Rules.typeIdentifier_singleton hcase hseparator
    (Text.begins_convert_convert hbegins)
  exact Naming.root_of_assign hlimit hsuffix (Naming.append_underscore_notMem_reserved t)
    hdefinitions hraw h

/-- A name in Pascal case that is not reserved is kept just when no two words of what it was made of
merge. -/
theorem rootFor_eq_iff (h : Case.pascal.convert stem ∉ t.rules.reserved.words) :
    t.rootFor (Case.pascal.convert stem) = Case.pascal.convert stem ↔
      (words stem.toList).IsChain fun w v => ¬ Merges w v := by
  rw [← Text.convert_pascal_convert_eq_iff, rootFor]
  split
  · next hreserved =>
    refine iff_of_false (fun heq => ?_) fun heq => h (heq ▸ hreserved)
    have hmem : '_' ∈ (Case.pascal.convert stem).toList := by
      rw [← heq, String.toList_append]
      simp
    exact absurd (Text.isWordChar_of_mem_convert_pascal hmem) (by decide)
  · rfl

end Typegen.Target

namespace Typegen.Mapping

/-- The root is declared once, under its own name. -/
theorem names_of_root {backend : Backend} {names : Naming.Table} {schema : Schema}
    {graph : ReferenceGraph} {m : Mapped} (hbackend : backend.Complete) (hsound : schema.Sound)
    (hsuits : names.Suits schema) (h : mapSchema backend names schema graph = .ok m) :
    (m.declarations.filter fun d => d.header.path = Pointer.root.text).map (·.name) =
      [names.root] := by
  have hbody : (schema.root, names.root) ∈ bodies names schema := by simp [bodies_eq hsuits]
  obtain ⟨d, hd, hpath, hname⟩ := exists_declaration_of_body hbackend hsound hsuits h hbody
  rw [hsound.root.path_eq] at hpath
  have hnodup := nodup_paths_of_mapSchema hbackend hsound hsuits h
  have hfilter : (m.declarations.filter fun d => d.header.path = Pointer.root.text) = [d] := by
    refine List.perm_singleton.1 ((List.perm_ext_iff_of_nodup ((List.Nodup.of_map _ hnodup).filter _)
      (List.nodup_singleton d)).2 fun d' => ?_)
    rw [List.mem_filter, List.mem_singleton, decide_eq_true_eq]
    constructor
    · rintro ⟨hd', hpath'⟩
      exact List.inj_on_of_nodup_map hnodup hd' hd (hpath'.trans hpath.symm)
    · rintro rfl
      exact ⟨hd, hpath⟩
  rw [hfilter, List.map_singleton, hname]

end Typegen.Mapping

namespace Typegen

/-- The package and the directory of a target are texts. -/
def TargetSettings.HasTexts (settings : TargetSettings) : Prop :=
  (∃ package, settings.package = .string package) ∧ ∃ dir, settings.outDir = .string dir

/-- The packages and the directories of all targets are texts. -/
def Settings.HasTexts (s : Settings) : Prop :=
  ∀ list, s.targets = .entries list → ∀ key settings, (key, .settings settings) ∈ list →
    settings.HasTexts

end Typegen

namespace Typegen.Generation

/-- The names of the types that are declared for the root of the schema. -/
def Output.rootTypes (out : Output) : List String :=
  (out.declarations.filter fun d => d.header.path = Pointer.root.text).map (·.name)

variable {j : Job} {p : Request.Prepared} {t : Target}

theorem rootTypes_of_alone (hengine : p.engine = t.backend.engine) (hsound : j.schema.Sound)
    {out : Output} (h : j.alone p = .ok out) :
    ∃ names, Naming.assign t.rules j.schema j.rootName = .ok names ∧
      out.rootTypes = [names.root] := by
  obtain ⟨names, m, files, hnames, hm, -, rfl⟩ := (alone_eq_ok hengine).1 h
  exact ⟨names, hnames, Mapping.names_of_root (t.complete_backend t.rules) hsound
    (Naming.Table.suits_of_assign hnames) hm⟩

theorem exists_alone (hengine : p.engine = t.backend.engine) {document : Json}
    (hdistinct : document.Distinct) (hresolve : Schema.resolve document = .ok j.schema)
    {name : String} (hname : j.rootName = .string name)
    (htexts : t = .go → p.settings.HasTexts) : ∃ out, j.alone p = .ok out := by
  obtain ⟨names, hnames⟩ := Naming.exists_assign (Naming.unbounded_rules t) j.schema name
  obtain ⟨m, hm, hshaped⟩ := Mapping.exists_shaped hdistinct hresolve hnames t j.graph
  have hsound := Schema.sound_of_resolve hdistinct hresolve
  obtain ⟨files, hfiles⟩ := Target.exists_renderFiles (s := (j.commission p names).setting) hsound
    hnames hshaped rfl htexts m.notes
  exact ⟨_, (alone_eq_ok hengine).2 ⟨names, m, files, hname ▸ hnames, hm, hfiles, rfl⟩⟩

end Typegen.Generation

namespace Typegen.Command

open Files (Tree)
open Text (Case words Merges)

/-- The name of the file that is read, without its extension. -/
def fileStem (vs : Values) : String := (Files.Path.ofText (valueOf vs "path").plain).stem

theorem rootName_of_unnamed {vs : Values} {s : Settings} (hname : valueOf vs "name" = .null)
    (hroot : s.rootName.isTruthy = false) :
    rootName vs s = .string (Case.pascal.convert (fileStem vs)) := by
  rw [rootName, hname]
  simp [hroot, fileStem]

/-- A run, in a tree and so without symbolic links, that is given a schema without definitions and no
name for the root type.  Every target that is requested declares the root type once.  Unless the name of
the file in Pascal case is reserved, it is the name of the type just when no two words in the name of
the file merge. -/
theorem root_named_after_file {t : Tree} {args : List String} {vs : Values} {s : Settings}
    {outcomes : List Generation.Outcome} {d : Json} {schema : Schema}
    (hvalues : values? t args = some vs) (hresults : results? t args = some (s, outcomes))
    (hname : valueOf vs "name" = .null) (hroot : s.rootName.isTruthy = false)
    (hnaming : KeepsNaming t args)
    (hdocument : (readText t (valueOf vs "path").plain >>= Document.load) = .ok d)
    (hresolve : Schema.resolve d = .ok schema) (hdefinitions : schema.definitions = [])
    (hbegins : Naming.Begins (fun c => !Text.isDigit c) (Case.pascal.convert (fileStem vs))) :
    (∃ targets, requestedTargets s = .ok targets ∧
      ∀ name, name ∈ targets ↔ ∃ o ∈ outcomes, o.target = name) ∧
    ∀ o ∈ outcomes, ∃ tg : Target, o.target = tg.label ∧
      ((tg = .go → s.HasTexts) → ∃ out, o.result = .ok out) ∧
      ∀ out, o.result = .ok out →
        out.rootTypes = [tg.rootFor (Case.pascal.convert (fileStem vs))] ∧
        (Case.pascal.convert (fileStem vs) ∉ tg.rules.reserved.words →
          (out.rootTypes = [Case.pascal.convert (fileStem vs)] ↔
            (words (fileStem vs).toList).IsChain fun w v => ¬ Merges w v)) := by
  refine ⟨(hasResults hnaming hresults).requested, ?_⟩
  obtain ⟨vs', targets, list, d', hvalues', -, hs, hdocument', houtcomes⟩ :=
    exists_request_of_results? hnaming hresults
  obtain rfl := Option.some.inj (hvalues.symm.trans hvalues')
  obtain rfl := Except.ok.inj (hdocument.symm.trans hdocument')
  obtain ⟨text, -, hload⟩ := bind_eq_ok.1 hdocument
  have hdistinct := Document.distinct_of_load hload
  obtain ⟨schema', ready, comment, hresolve', -, rfl, hshipped⟩ :=
    Generation.exists_ready_of_run rfl
      (fun name settings hsettings v hv => keepsNaming_of_targetSettings hs hsettings hv)
      rfl houtcomes
  obtain rfl := Except.ok.inj (hresolve.symm.trans hresolve')
  have hrootName := rootName_of_unnamed hname hroot
  intro o ho
  obtain ⟨p, hp, rfl⟩ := List.mem_map.1 ho
  obtain ⟨tg, htarget, hengine, hsettings⟩ := hshipped p hp
  refine ⟨tg, htarget, fun htexts => ?_, fun out hout => ?_⟩
  · refine Generation.exists_alone hengine hdistinct hresolve hrootName fun hgo => ?_
    rcases mem_of_targetSettings hs.targets hsettings with heq | ⟨key, hmem⟩
    · rw [heq]
      exact ⟨⟨_, rfl⟩, _, rfl⟩
    · exact htexts hgo list hs.targets key _ hmem
  · obtain ⟨names, hnames, htypes⟩ := Generation.rootTypes_of_alone hengine
      (Schema.sound_of_resolve hdistinct hresolve) hout
    have hassign : Naming.assign tg.rules schema (.string (Case.pascal.convert (fileStem vs))) =
        .ok names := hrootName ▸ hnames
    rw [htypes, Target.root_eq_rootFor hdefinitions hbegins hassign]
    refine ⟨rfl, fun hfree => ?_⟩
    rw [List.singleton_inj, Target.rootFor_eq_iff hfree]

/-- A directory with the schema `{"properties": {}}`. -/
def desk (file : String) : Tree where
  current := ["desk"]
  entries := [(["desk", file], .file "\x7b\"properties\": \x7b\x7d\x7d")]

/-- The arguments of a run for two targets. -/
def deskArguments (file : String) : List String := ["--ts-out", "o", "--java-out", "j", file]

/-- A single letter in front of a longer word stays apart from it. -/
theorem root_named_after_xRay :
    ∃ vs s outcomes, values? (desk "x_ray_7.json") (deskArguments "x_ray_7.json") = some vs ∧
      results? (desk "x_ray_7.json") (deskArguments "x_ray_7.json") = some (s, outcomes) ∧
      fileStem vs = "x_ray_7" ∧ outcomes.map (·.target) = ["typescript", "java"] ∧
      ∀ o ∈ outcomes, ∃ out, o.result = .ok out ∧ out.rootTypes = ["XRay7"] := by
  have hnone : (values? (desk "x_ray_7.json") (deskArguments "x_ray_7.json")).map
      (fun vs => (valueOf vs "name", valueOf vs "config")) = some (.null, .null) := by
    with_unfolding_all rfl
  have hpath : (values? (desk "x_ray_7.json") (deskArguments "x_ray_7.json")).map
      (fun vs => ((valueOf vs "path").plain, fileStem vs)) =
        some ("/desk/x_ray_7.json", "x_ray_7") := by
    decide +kernel
  have hschema : (readText (desk "x_ray_7.json") "/desk/x_ray_7.json" >>= Document.load
      >>= Schema.resolve).toOption.map (·.definitions.isEmpty) = some true := by
    decide +kernel
  have hresults : (results? (desk "x_ray_7.json") (deskArguments "x_ray_7.json")).map
      (fun r => (r.1.rootName.isTruthy, r.2.map (·.target))) =
        some (false, ["typescript", "java"]) := by
    decide +kernel
  have hconvert : Case.pascal.convert "x_ray_7" = "XRay7" := by decide +kernel
  obtain ⟨vs, hvalues, hnone⟩ := Option.map_eq_some_iff.1 hnone
  rw [hvalues, Option.map_some, Option.some.injEq, Prod.mk.injEq] at hpath
  obtain ⟨hpath, hstem⟩ := hpath
  obtain ⟨hname, hconfig⟩ := Prod.mk.inj hnone
  obtain ⟨⟨s, outcomes⟩, hresults, hkept⟩ := Option.map_eq_some_iff.1 hresults
  obtain ⟨hroot, htargets⟩ := Prod.mk.inj hkept
  obtain ⟨schema, hschema, hempty⟩ := Option.map_eq_some_iff.1 hschema
  obtain ⟨d, hdocument, hresolve⟩ := bind_eq_ok.1 (toOption_eq_some.1 hschema)
  rw [← hpath] at hdocument
  obtain ⟨-, hroots⟩ := root_named_after_file hvalues hresults hname hroot
    (keepsNaming_of_noConfig (by rw [hvalues, Option.map_some, hconfig])) hdocument hresolve
    (List.isEmpty_iff.1 hempty) (by
      rw [hstem, hconvert]
      simp [Naming.Begins, Text.isDigit])
  refine ⟨vs, s, outcomes, hvalues, hresults, hstem, htargets, fun o ho => ?_⟩
  obtain ⟨tg, htarget, hyields, hnamed⟩ := hroots o ho
  have hmem : tg.label ∈ ["typescript", "java"] := by
    rw [← htarget, ← htargets]
    exact List.mem_map_of_mem ho
  obtain ⟨out, hout⟩ := hyields (by
    rintro rfl
    exact absurd hmem (by decide))
  rw [hstem, hconvert] at hnamed
  exact ⟨out, hout, ((hnamed out hout).2 (by cases tg <;> decide)).2 (by decide +kernel)⟩

/-- Two letters become one word, and the type and its file are not called as the file says. -/
theorem root_not_named_after_file :
    (values? (desk "a_b.json") ["--ts-out", "o", "a_b.json"]).map fileStem = some "a_b" ∧
    Case.pascal.convert "a_b" = "AB" ∧ "AB" ∉ Target.TypeScript.rules.reserved.words ∧
    (results? (desk "a_b.json") ["--ts-out", "o", "a_b.json"]).map
      (fun r => r.2.map fun o => o.result.toOption.map (·.rootTypes)) = some [some ["Ab"]] := by
  refine ⟨by decide +kernel, by decide +kernel, by decide, by decide +kernel⟩

end Typegen.Command
