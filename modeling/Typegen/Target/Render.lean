import Typegen.Mapping
import Typegen.Target.Go.Render
import Typegen.Target.Java.Render
import Typegen.Target.Python.Render
import Typegen.Target.TypeScript.Render

/-!
# Rendering

The text of type expressions, declarations and whole files in every target.
-/

namespace Typegen

namespace Target

/-- The text of a type expression. -/
def renderType : Target → TypeExpr → Except Failure String
  | typescript => TypeScript.renderType
  | go => Go.renderType
  | java => Java.renderType
  | python => Python.renderType

/-- The text of a declaration. -/
def renderDeclaration (t : Target) (s : Setting) (d : Declaration) : Except Failure String := do
  let lines ← match t with
    | typescript => TypeScript.declarationLines d
    | go => Go.declarationLines d
    | java => Java.declarationLines d
    | python => Python.declarationLines s d
  return layout lines

/-- What some declarations import. -/
def imports : Target → List Declaration → Except Failure (List String)
  | typescript, _ => .ok []
  | go, ds => .ok (Go.imports ds)
  | java, ds => .ok (Java.imports ds)
  | python, ds => Python.imports ds

/-- The text at the top of a file. -/
def renderHeading (t : Target) (s : Setting) (ds : List Declaration) (notes : List String) :
    Except Failure String := do
  let lines ← match t with
    | typescript => pure (TypeScript.heading s notes)
    | go => Go.heading s ds notes
    | java => pure (Java.heading s ds notes)
    | python => Python.heading s ds notes
  return layout lines

/-- The path of the file that holds all declarations. -/
def outputPath : Target → Setting → Except Failure String
  | typescript, s => .ok (TypeScript.outputPath s)
  | go, s => Go.outputPath s
  | java, s => .ok (Java.outputPath s.rootName.plain)
  | python, s => Python.outputPath s

/-- What stands between declarations. -/
def separator : Target → String
  | python => "\n\n\n"
  | _ => "\n\n"

/-- One file with all declarations. -/
def renderSingle (t : Target) (s : Setting) (ds : List Declaration) (notes : List String) :
    Except Failure (List RenderedFile) := do
  let s := { s with declared := Declaration.byName ds }
  let heading ← t.renderHeading s ds notes
  let parts ← ds.mapM (t.renderDeclaration s)
  let path ← t.outputPath s
  return [⟨path, joinParts t.separator (heading :: parts)⟩]

/-- One file for each declaration. -/
def renderEach (t : Target) (s : Setting) (ds : List Declaration) :
    Except Failure (List RenderedFile) :=
  ds.mapM fun d => do
    let heading ← t.renderHeading s [d] (Declaration.collectNotes [d])
    let body ← t.renderDeclaration s d
    return ⟨Java.outputPath d.name, joinParts t.separator [heading, body]⟩

/-- The files of some declarations. -/
def renderFiles (t : Target) (s : Setting) (ds : List Declaration) (notes : List String) :
    Except Failure (List RenderedFile) :=
  match t with
  | java => t.renderEach s ds
  | _ => t.renderSingle s ds notes

end Target

/-- The files of a mapped schema. -/
def Backend.renderFiles (b : Backend) (s : Target.Setting) (m : Mapped) :
    Except Failure (List Target.RenderedFile) :=
  match b.refusal with
  | some reason => .error (.badOption reason)
  | none => b.target.renderFiles s m.declarations m.notes

end Typegen
