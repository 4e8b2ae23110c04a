import Typegen.Proofs.GoImports
import Typegen.Proofs.JavaCode
import Typegen.Proofs.KeptKeys
import Typegen.Proofs.NoteLines
import Typegen.Proofs.TypeScriptCode

/-!
# Files of every target

Under the default naming rules a target renders whatever a schema is mapped to
(`exists_renderFiles`).  Only Go looks at options that may be of a wrong type: it derives the name of
the package from them.
-/

namespace Typegen.Target

theorem Setting.snakeName_eq {s : Setting} {root : String} (h : s.rootName = .string root) :
    s.snakeName = .ok (Text.Case.snake.convert root) := by
  rw [snakeName, h]

/-- The package and the directory are texts. -/
def Setting.HasTexts (s : Setting) : Prop :=
  (∃ package, s.package = .string package) ∧ ∃ dir, s.outDir = .string dir

theorem Go.exists_packageName {s : Setting} {root : String} (hroot : s.rootName = .string root)
    (htexts : s.HasTexts) : ∃ name, packageName s = .ok name := by
  obtain ⟨⟨package, hpackage⟩, dir, hdir⟩ := htexts
  obtain ⟨source, hsource⟩ : ∃ source, packageSource s = .ok source := by
    simp only [packageSource, hpackage, hdir, Setting.snakeName_eq hroot]
    split_ifs <;> exact ⟨_, rfl⟩
  exact ⟨_, bind_eq_ok.2 ⟨source, hsource, rfl⟩⟩

section Rendering

variable {t : Target} {schema : Schema} {rootName : Json} {names : Naming.Table}
  {ds : List Declaration}

theorem exists_renderDeclaration (hsound : schema.Sound)
    (hassign : Naming.assign t.rules schema rootName = .ok names)
    (hds : ∀ d ∈ ds, d.Shaped t names) (s : Setting) {d : Declaration} (hd : d ∈ ds) :
    ∃ text, t.renderDeclaration { s with declared := Declaration.byName ds } d = .ok text := by
  have hlegal := Naming.spellsLegally_rules t
  cases t with
  | typescript =>
    have htypes := Naming.legal_typeNames hlegal (by decide) hassign
    have hkeys : ∀ key id, names.NamesKey key id → id = key := by
      rintro key _ ⟨path, f, hf, rfl⟩
      exact Naming.identifier_of_fieldName TypeScript.keepsKeys_rules hsound hassign hf
    obtain ⟨text, htext, -⟩ := TypeScript.exists_text htypes hkeys (hds d hd)
      { s with declared := Declaration.byName ds }
    exact ⟨text, htext⟩
  | go =>
    have hplain := Naming.Table.plain_of_assign hlegal (by decide) (by decide) (by decide) hassign
    exact Go.exists_text hplain (hds d hd) _
  | java =>
    have hplain := Naming.Table.plain_of_assign hlegal (by decide) (by decide) (by decide) hassign
    obtain ⟨text, htext, -⟩ := Java.exists_text hplain (hds d hd)
      { s with declared := Declaration.byName ds }
    exact ⟨text, htext⟩
  | python =>
    obtain ⟨text, htext, -⟩ :=
      Python.exists_text (Python.clear_of_assign hassign) hds s (hds d hd)
    exact ⟨text, htext⟩

variable {s : Setting} {root : String}

theorem exists_heading (hroot : s.rootName = .string root) (htexts : t = go → s.HasTexts)
    (hds : ∀ d ∈ ds, d.Shaped t names) (notes : List String) :
    ∃ heading, t.renderHeading s ds notes = .ok heading := by
  cases t with
  | typescript | java => exact ⟨_, rfl⟩
  | go =>
    obtain ⟨name, hname⟩ := Go.exists_packageName hroot (htexts rfl)
    exact ⟨_, bind_eq_ok.2 ⟨_, bind_eq_ok.2 ⟨name, hname, rfl⟩, rfl⟩⟩
  | python =>
    have hlossy : python.loss .float32 ≠ none := by decide
    obtain ⟨rest, hheading⟩ := exists_renderHeading hlossy hds s notes
    exact ⟨_, hheading⟩

theorem exists_outputPath (hroot : s.rootName = .string root) (htexts : t = go → s.HasTexts) :
    ∃ path, t.outputPath s = .ok path := by
  cases t with
  | typescript | java => exact ⟨_, rfl⟩
  | go =>
    obtain ⟨name, hname⟩ := Go.exists_packageName hroot (htexts rfl)
    exact ⟨_, bind_eq_ok.2 ⟨name, hname, rfl⟩⟩
  | python => exact ⟨_, bind_eq_ok.2 ⟨_, Setting.snakeName_eq hroot, rfl⟩⟩

theorem exists_renderSingle (hsound : schema.Sound)
    (hassign : Naming.assign t.rules schema rootName = .ok names) (hds : ∀ d ∈ ds, d.Shaped t names)
    (hroot : s.rootName = .string root) (htexts : t = go → s.HasTexts) (notes : List String) :
    ∃ files, t.renderSingle s ds notes = .ok files := by
  obtain ⟨heading, hheading⟩ : ∃ heading,
      t.renderHeading { s with declared := Declaration.byName ds } ds notes = .ok heading :=
    exists_heading hroot htexts hds notes
  obtain ⟨path, hpath⟩ : ∃ path,
      t.outputPath { s with declared := Declaration.byName ds } = .ok path :=
    exists_outputPath hroot htexts
  have hparts : ∀ d ∈ ds, ∃ text,
      t.renderDeclaration { s with declared := Declaration.byName ds } d = .ok text ∧ True :=
    fun d hd => (exists_renderDeclaration hsound hassign hds s hd).imp fun _ h => ⟨h, trivial⟩
  obtain ⟨parts, hparts, -⟩ := exists_mapM hparts
  exact ⟨_, bind_eq_ok.2 ⟨heading, hheading, bind_eq_ok.2 ⟨parts, hparts,
    bind_eq_ok.2 ⟨path, hpath, rfl⟩⟩⟩⟩

/-- The declarations of a schema are rendered by every target, by Go as long as the package and the
directory are texts. -/
theorem exists_renderFiles (hsound : schema.Sound)
    (hassign : Naming.assign t.rules schema rootName = .ok names) (hds : ∀ d ∈ ds, d.Shaped t names)
    (hroot : s.rootName = .string root) (htexts : t = go → s.HasTexts) (notes : List String) :
    ∃ files, t.renderFiles s ds notes = .ok files := by
  cases t with
  | java =>
    have hfile : ∀ d ∈ ds, ∃ file, (do
        let heading ← java.renderHeading s [d] (Declaration.collectNotes [d])
        let body ← java.renderDeclaration s d
        return ⟨Java.outputPath d.name, joinParts java.separator [heading, body]⟩) =
          (.ok file : Except Failure RenderedFile) ∧ True := by
      intro d hd
      obtain ⟨body, hbody⟩ := exists_renderDeclaration hsound hassign hds s hd
      exact ⟨_, bind_eq_ok.2 ⟨_, rfl, bind_eq_ok.2 ⟨body, hbody, rfl⟩⟩, trivial⟩
    obtain ⟨files, hfiles, -⟩ := exists_mapM hfile
    exact ⟨files, hfiles⟩
  | typescript | go | python => exact exists_renderSingle hsound hassign hds hroot htexts notes

end Rendering

end Typegen.Target
