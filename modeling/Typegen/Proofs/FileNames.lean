import Typegen.Proofs.Inline
import Typegen.Proofs.Isolation
import Typegen.Proofs.Writing

/-!
# Names of generated files

With the default naming rules a file has a plain name and the extension of its target, so it lies
directly in the output directory, and files of different targets are never confused.  The files of
one target have different names.
-/

namespace Typegen.Target

open Text (Plain)

/-- The extension of the files of a target. -/
def extension : Target → String
  | typescript => ".ts"
  | go => ".go"
  | java => ".java"
  | python => ".py"

/-- A plain name with the extension of a target. -/
def IsFileName (t : Target) (path : String) : Prop :=
  ∃ stem : String, Plain stem.toList ∧ path = stem ++ t.extension

theorem ne_of_plain {c other : Char} (hc : Text.isWordChar c = true ∨ c = '_')
    (hother : Text.isWordChar other = false) (hne : other ≠ '_') : c ≠ other := by
  rintro rfl
  rcases hc with hc | rfl
  · rw [hother] at hc
    cases hc
  · exact hne rfl

variable {t : Target} {s : Setting} {path : String} {ds : List Declaration}
  {files : List RenderedFile}

/-- A file name is a path with one part. -/
theorem IsFileName.isName (h : t.IsFileName path) : Files.IsName path := by
  obtain ⟨stem, hstem, rfl⟩ := h
  have hslash : '/' ∉ (stem ++ t.extension).toList := by
    rw [String.toList_append, List.mem_append, not_or]
    refine ⟨fun hmem => ne_of_plain (hstem _ hmem) (by decide) (by decide) rfl, ?_⟩
    cases t <;> decide
  have hlength : 3 ≤ (stem ++ t.extension).length := by
    have hextension : 3 ≤ t.extension.length := by cases t <;> decide
    rw [String.length_append]
    omega
  have hne : ∀ text : String, text.length < 3 → stem ++ t.extension ≠ text := by
    rintro text htext heq
    rw [heq] at hlength
    omega
  refine ⟨?_, hne ".." (by decide)⟩
  have hfront : (stem ++ t.extension).toList.takeWhile (· = '/') = [] := by
    cases hcs : (stem ++ t.extension).toList with
    | nil => rfl
    | cons c cs =>
      rw [hcs, List.mem_cons, not_or] at hslash
      rw [List.takeWhile_cons_of_neg (by simpa using Ne.symm hslash.1)]
  rw [Files.Path.ofText, hfront, Files.Path.partsOf, List.splitOn_eq_singleton hslash]
  simp [Files.Path.rootFor, hne "" (by decide), hne "." (by decide)]

theorem IsFileName.unique {t' : Target} (h : t.IsFileName path) (h' : t'.IsFileName path) :
    t = t' := by
  have hextension : ∀ {t : Target}, t.IsFileName path →
      path.toList.dropWhile (· ≠ '.') = t.extension.toList := by
    rintro t ⟨stem, hstem, rfl⟩
    rw [String.toList_append, List.dropWhile_append_of_pos]
    · cases t <;> decide
    · intro c hc
      simpa using ne_of_plain (hstem c hc) (by decide) (by decide)
  have heq := (hextension h).symm.trans (hextension h')
  cases t <;> cases t' <;> first | rfl | exact absurd heq (by decide)

theorem spellsPlainly_rules (t : Target) : t.rules.SpellsPlainly := by
  cases t <;> exact ⟨by decide, by rintro _ ⟨⟩; decide, by rintro _ ⟨⟩; decide⟩

theorem plain_packageName {package : String} (h : Go.packageName s = .ok package) :
    Plain package.toList := by
  obtain ⟨source, -, h⟩ := bind_eq_ok.1 h
  rw [← pure_eq_ok.1 h, String.toList_append, String.toList_ofList]
  refine Plain.append ?_ fun c hc => ?_
  · split
    · decide
    · split <;> decide
  · have hchar := (List.mem_filter.1 hc).2
    rw [Go.isPackageChar, Bool.or_eq_true, Bool.or_eq_true, decide_eq_true_eq] at hchar
    rcases hchar with (hsmall | hdigit) | hdash
    · exact .inl (by simp [Text.isWordChar, hsmall])
    · exact .inl (by simp [Text.isWordChar, hdigit])
    · exact .inr hdash

/-- The path of the file that holds all declarations. -/
theorem isFileName_outputPath {root : String} (h : t.outputPath s = .ok path)
    (hroot : s.rootName = .string root) (hplain : Plain root.toList) : t.IsFileName path := by
  cases t with
  | typescript =>
    cases h
    refine ⟨root, hplain, ?_⟩
    simp [TypeScript.outputPath, hroot, extension, Json.plain]
  | go =>
    obtain ⟨package, hpackage, h⟩ := bind_eq_ok.1 h
    cases h
    exact ⟨package, plain_packageName hpackage, rfl⟩
  | java =>
    cases h
    refine ⟨root, hplain, ?_⟩
    simp [Java.outputPath, hroot, extension, Json.plain]
  | python =>
    obtain ⟨name, hname, h⟩ := bind_eq_ok.1 h
    cases h
    refine ⟨_, ?_, rfl⟩
    rw [Setting.snakeName, hroot] at hname
    cases hname
    split_ifs
    · decide
    · exact Text.plain_convert (by decide) _

theorem files_of_renderSingle {notes : List String} (h : t.renderSingle s ds notes = .ok files) :
    ∃ path content, t.outputPath { s with declared := Declaration.byName ds } = .ok path ∧
      files = [⟨path, content⟩] := by
  obtain ⟨heading, -, h⟩ := bind_eq_ok.1 h
  obtain ⟨parts, -, h⟩ := bind_eq_ok.1 h
  obtain ⟨path, hpath, h⟩ := bind_eq_ok.1 h
  cases h
  exact ⟨path, _, hpath, rfl⟩

theorem paths_of_renderEach (h : t.renderEach s ds = .ok files) :
    files.map (·.path) = ds.map fun d => Java.outputPath d.name := by
  refine map_eq_of_forall₂ (mapM_eq_ok.1 h) fun d f hf => ?_
  obtain ⟨heading, -, hf⟩ := bind_eq_ok.1 hf
  obtain ⟨body, -, hf⟩ := bind_eq_ok.1 hf
  cases hf
  rfl

/-- The files of declarations with different plain names have file names of the target, which are
different. -/
theorem fileNames_of_renderFiles {notes : List String} (h : t.renderFiles s ds notes = .ok files)
    {root : String} (hroot : s.rootName = .string root) (hplain : Plain root.toList)
    (hnames : ∀ d ∈ ds, Plain d.name.toList) (hnodup : (ds.map (·.name)).Nodup) :
    (∀ f ∈ files, t.IsFileName f.path) ∧ (files.map (·.path)).Nodup := by
  have hsingle : t.renderSingle s ds notes = .ok files →
      (∀ f ∈ files, t.IsFileName f.path) ∧ (files.map (·.path)).Nodup := by
    intro h
    obtain ⟨path, content, hpath, rfl⟩ := files_of_renderSingle h
    simpa using isFileName_outputPath hpath hroot hplain
  cases t with
  | java =>
    have hpaths := paths_of_renderEach h
    constructor
    · intro f hf
      have hmem : f.path ∈ files.map (·.path) := List.mem_map_of_mem hf
      rw [hpaths] at hmem
      obtain ⟨d, hd, heq⟩ := List.mem_map.1 hmem
      exact ⟨d.name, hnames d hd, heq.symm⟩
    · rw [hpaths]
      have hinjective : Function.Injective Java.outputPath := by
        intro a b heq
        simpa [Java.outputPath] using heq
      have hnodup := hnodup.map hinjective
      rwa [List.map_map] at hnodup
  | typescript => exact hsingle h
  | go => exact hsingle h
  | python => exact hsingle h

end Typegen.Target

namespace Typegen.Registry

theorem factories_standard :
    standard.factories = Target.all.map fun t => (t.label, .backend t.backend) := by
  with_unfolding_all rfl

theorem aliases_standard : standard.aliases = [("ts", Target.typescript.label),
    ("golang", Target.go.label), ("py", Target.python.label)] := by
  with_unfolding_all rfl

theorem resolveName_label (t : Target) : standard.resolveName t.label = .ok t.label := by
  cases t <;> with_unfolding_all rfl

theorem lookup_factories (t : Target) :
    standard.factories.lookup t.label = some (.backend t.backend) := by
  rw [factories_standard]
  cases t <;> rfl

/-- Whatever a name stands for is one of the shipped targets. -/
theorem exists_target {name key : String} (h : standard.resolveName name = .ok key) :
    ∃ t : Target, key = t.label := by
  unfold resolveName at h
  simp only [has, factories_standard, aliases_standard] at h
  split_ifs at h with hkey
  · cases h
    obtain ⟨factory, hfactory⟩ := Option.isSome_iff_exists.1 hkey
    obtain ⟨t, -, heq⟩ := List.mem_map.1 (mem_of_lookup hfactory)
    exact ⟨t, (Prod.mk.inj heq).1.symm⟩
  · split at h
    · next target htarget =>
      cases h
      have hmem := mem_of_lookup htarget
      simp only [List.mem_cons, Prod.mk.injEq, List.not_mem_nil, or_false] at hmem
      rcases hmem with ⟨-, rfl⟩ | ⟨-, rfl⟩ | ⟨-, rfl⟩
      · exact ⟨.typescript, rfl⟩
      · exact ⟨.go, rfl⟩
      · exact ⟨.python, rfl⟩
    · cases h

end Typegen.Registry

namespace Typegen.Generation

open Target (RenderedFile)

theorem mapError_eq_ok {α : Type} {x : Except Failure α} {f : Failure → Failure} {a : α} :
    x.mapError f = .ok a ↔ x = .ok a := by
  cases x <;> simp [Except.mapError]

/-- Files that have the names of a target, each a different one. -/
def NamedFor (t : Target) (files : List RenderedFile) : Prop :=
  (∀ f ∈ files, t.IsFileName f.path) ∧ (files.map (·.path)).Nodup

variable {r : Request} {p : Request.Prepared} {targets : List Json}

/-- A shipped target names the schema, maps it and renders what it was mapped to. -/
theorem alone_eq_ok {j : Job} {t : Target} {out : Output} (hengine : p.engine = t.backend.engine) :
    j.alone p = .ok out ↔ ∃ names m files, Naming.assign t.rules j.schema j.rootName = .ok names ∧
      mapSchema t.backend names j.schema j.graph = .ok m ∧
      t.renderFiles (j.commission p names).setting m.declarations m.notes = .ok files ∧
      out = ⟨m.declarations, m.notes, files⟩ := by
  simp only [Job.alone, Job.name, Job.map, Job.render, bind_eq_ok, pure_eq_ok, mapError_eq_ok,
    hengine]
  constructor
  · rintro ⟨names, hnames, m, hm, files, hfiles, rfl⟩
    exact ⟨names, m, files, hnames, hm, hfiles, rfl⟩
  · rintro ⟨names, m, files, hnames, hm, hfiles, rfl⟩
    exact ⟨names, hnames, m, hm, files, hfiles, rfl⟩

theorem namedFor_of_alone {j : Job} {t : Target} {out : Output}
    (hengine : p.engine = t.backend.engine) (hsound : j.schema.Sound) (h : j.alone p = .ok out) :
    NamedFor t out.files := by
  obtain ⟨names, m, files, hnames, hm, hfiles, rfl⟩ := (alone_eq_ok hengine).1 h
  have hcomplete : t.backend.Complete := Target.complete_backend t t.rules
  have hplain := t.spellsPlainly_rules
  have hclaims := Mapping.claimsType_of_mapSchema hcomplete hsound hnames hm
  have hroot := (Naming.claimsType_of_assign hnames).2.1
  exact Target.fileNames_of_renderFiles hfiles rfl (hroot.plain hplain)
    (fun d hd => (hclaims d hd).plain hplain)
    (Mapping.nodup_names_of_mapSchema hcomplete hsound hnames hm)

/-- A shipped target without naming rules of its own works by its default rules. -/
theorem engine_of_ready {t : Target} (hregistry : r.registry = .standard)
    (hnaming : ∀ v, p.settings.naming = some v → v.isFalsy = true) (h : r.ready t.label = .ok p) :
    p.engine = t.backend.engine := by
  obtain ⟨settings, -, h⟩ := bind_eq_ok.1 h
  obtain ⟨naming, hrules, h⟩ := bind_eq_ok.1 h
  obtain ⟨engine, hcreate, h⟩ := bind_eq_ok.1 h
  cases h
  have hfalsy : naming.isFalsy = true := by
    refine hnaming naming ?_
    show settings.naming = some naming
    unfold TargetSettings.namingRules at hrules
    split at hrules
    · next v hv => rw [hv, Except.ok.inj hrules]
    · cases hrules
  rw [hregistry, Registry.create] at hcreate
  obtain ⟨key, hkey, hcreate⟩ := bind_eq_ok.1 hcreate
  rw [Registry.resolveName_label, Except.ok.injEq] at hkey
  rw [← hkey, Registry.lookup_factories] at hcreate
  obtain ⟨rules, hmerged, hcreate⟩ := bind_eq_ok.1 hcreate
  unfold Naming.Rules.merged at hmerged
  rw [if_pos hfalsy] at hmerged
  cases hmerged
  cases hcreate
  rfl

theorem settings_of_ready {name : String} (h : r.ready name = .ok p) :
    r.targetSettings name = .ok p.settings := by
  obtain ⟨settings, hsettings, h⟩ := bind_eq_ok.1 h
  obtain ⟨naming, -, h⟩ := bind_eq_ok.1 h
  obtain ⟨engine, -, h⟩ := bind_eq_ok.1 h
  cases h
  exact hsettings

theorem exists_requested_of_mem {ready : List Request.Prepared}
    (h : r.prepare [] targets = .ok ready) (hp : p ∈ ready) :
    ∃ requested ∈ targets, r.targetOf requested = .ok p.name := by
  obtain ⟨names, hnames, heq⟩ := Request.names_of_prepare h
  have hmem : p.name ∈ ready.map Request.Prepared.name := List.mem_map_of_mem hp
  rw [heq] at hmem
  exact exists_of_mem_right (mapM_eq_ok.1 hnames) (by simpa using hmem)

/-- The outcomes of a request for shipped targets without naming rules of their own are those of
targets that work by their default rules. -/
theorem exists_ready_of_run {outcomes : List Outcome} (hregistry : r.registry = .standard)
    (hnaming : ∀ name settings, r.targetSettings name = .ok settings →
      ∀ v, settings.naming = some v → v.isFalsy = true) (htargets : r.targets = some targets)
    (h : (run r).outcomes = .ok outcomes) :
    ∃ schema ready comment, Schema.resolve r.document = .ok schema ∧
      r.prepare [] targets = .ok ready ∧ outcomes = ready.map (r.job schema comment).outcome ∧
      ∀ p ∈ ready, ∃ t : Target, p.name = t.label ∧ p.engine = t.backend.engine ∧
        r.targetSettings p.name = .ok p.settings := by
  have hrequested : r.requested = .ok targets := by rw [Request.requested, htargets]
  rw [run_eq hrequested] at h
  rcases runFor_cases r targets with
    ⟨schema, ready, comment, hresolve, hprepare, hcomment⟩ | ⟨f, hstopped⟩
  · rw [(runFor_of_ready hresolve hprepare hcomment []).1, Except.ok.injEq] at h
    refine ⟨schema, ready, comment, hresolve, hprepare, h.symm, fun p hp => ?_⟩
    obtain ⟨requested, -, hname⟩ := exists_requested_of_mem hprepare hp
    obtain ⟨text, -, hresolved⟩ := bind_eq_ok.1 hname
    rw [hregistry] at hresolved
    obtain ⟨t, ht⟩ := Registry.exists_target hresolved
    have hready := Request.ready_of_prepare hprepare p hp
    rw [ht] at hready ⊢
    have hsettings := settings_of_ready hready
    exact ⟨t, rfl, engine_of_ready hregistry (hnaming _ _ hsettings) hready, hsettings⟩
  · rw [(hstopped []).1] at h
    cases h

/-- The outcomes of a request for shipped targets without naming rules of their own: one for each
target that is requested, with files that have the names of the target. -/
theorem namedFor_of_run {outcomes : List Outcome} (hregistry : r.registry = .standard)
    (hdistinct : r.document.Distinct)
    (hnaming : ∀ name settings, r.targetSettings name = .ok settings →
      ∀ v, settings.naming = some v → v.isFalsy = true) (htargets : r.targets = some targets)
    (h : (run r).outcomes = .ok outcomes) :
    (outcomes.map (·.target)).Nodup ∧
      (∀ o ∈ outcomes, ∃ t : Target, o.target = t.label ∧
        ∀ out, o.result = .ok out → NamedFor t out.files) ∧
      (∀ requested ∈ targets, ∃ o ∈ outcomes, r.targetOf requested = .ok o.target) ∧
      ∀ o ∈ outcomes, ∃ requested ∈ targets, r.targetOf requested = .ok o.target := by
  obtain ⟨schema, ready, comment, hresolve, hprepare, rfl, hshipped⟩ :=
    exists_ready_of_run hregistry hnaming htargets h
  refine ⟨?_, fun o ho => ?_, fun requested hmem => ?_, fun o ho => ?_⟩
  · rw [List.map_map]
    exact Request.nodup_names_of_prepare hprepare
  · obtain ⟨p, hp, rfl⟩ := List.mem_map.1 ho
    obtain ⟨t, ht, hengine, -⟩ := hshipped p hp
    exact ⟨t, ht, fun out => namedFor_of_alone hengine (Schema.sound_of_resolve hdistinct hresolve)⟩
  · obtain ⟨p, hp, hname⟩ := Request.exists_ready_of_mem hprepare hmem
    exact ⟨_, List.mem_map_of_mem hp, hname⟩
  · obtain ⟨p, hp, rfl⟩ := List.mem_map.1 ho
    exact exists_requested_of_mem hprepare hp

end Typegen.Generation
