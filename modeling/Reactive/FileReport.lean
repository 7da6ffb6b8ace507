import Reactive.Config
import Reactive.Diagnostic
import Reactive.Files
import Reactive.Machine.Image
import Reactive.Patch.Assembly
import Reactive.Patch.Stored
import Reactive.Source.Unit

/-!
# Reactive.FileReport — what becomes of a declaration file

A file is parsed and analyzed, and what is generated for its classes are artifacts.  A patch is an artifact only if it
fits the class that it is made for.  Everything that is wrong becomes a diagnostic.
-/

namespace Reactive

/-- What is done with a file. -/
inductive Mode
  /-- It is analyzed only. -/
  | check
  | emit (backend : Backend)
deriving DecidableEq, Repr

/-- A generated file. -/
structure Artifact where
  /-- The class in its namespace. -/
  className : String
  fileName : String
  contents : String
  /-- The listing of a patch. -/
  listing : Option String
deriving DecidableEq, Repr

/-- Why nothing is generated for a class. -/
inductive GenerationError
  | source (className : String) (cause : CompileError)
  | lowering (className : String) (cause : CompileError)
  | undeclared (className : String)
  | misfit (className : String) (cause : RuntimeError)
deriving DecidableEq, Repr

/-- The wording of a runtime error and, behind it, of its cause. -/
def RuntimeError.messageWithCause (e : RuntimeError) : String :=
  match e with
  | .notCompiled cause => e.message ++ ": " ++ cause.message
  | _ => e.message

/-- The wording of the error, with its cause. -/
def GenerationError.message : GenerationError → String
  | source name cause => "failed to generate " ++ name ++ ": " ++ cause.message
  | lowering name cause => "failed to lower " ++ name ++ ": " ++ cause.message
  | undeclared name => "class " ++ name ++ " vanished from its declarations"
  | misfit name cause => "patch for " ++ name ++ " does not apply: " ++ cause.messageWithCause

/-- The file of a class's patch. -/
def ClassHeader.patchFileName (h : ClassHeader) : String := fileStem h.fullName ++ ".rxpatch"

namespace Artifact

/-- The source file of a class. -/
def ofSource (m : ClassModel) : Except GenerationError Artifact :=
  match SourceUnit.ofModel m with
  | .ok unit => .ok ⟨unit.className, unit.fileName, unit.text, none⟩
  | .error e => .error (.source m.header.fullName e)

/-- The patch of a class, which has to fit its declaration. -/
def ofPatch (set : DeclarationSet) (m : ClassModel) : Except GenerationError Artifact :=
  match PatchModule.ofModel m with
  | .error e => .error (.lowering m.header.fullName e)
  | .ok module =>
    match set.class? m.header.name with
    | none => .error (.undeclared m.header.name)
    | some declaration =>
      match ClassImage.ofPatched declaration set.conventions module with
      | .error e => .error (.misfit m.header.fullName e)
      | .ok _ => .ok ⟨m.header.fullName, m.header.patchFileName, module.stored, some module.fullListing⟩

/-- What is generated for a class. -/
def ofModel (backend : Backend) (set : DeclarationSet) (m : ClassModel) : Except GenerationError Artifact :=
  match backend with
  | .source => ofSource m
  | .patch => ofPatch set m

end Artifact

/-- What became of a declaration file. -/
structure FileReport where
  path : String
  text : String
  diagnostics : List Diagnostic
  errors : Nat
  warnings : Nat
  artifacts : List Artifact
deriving DecidableEq, Repr

namespace FileReport

/-- Something is wrong. -/
def hasErrors (r : FileReport) : Bool := r.errors > 0

/-- The report with what is generated for a class, or with why there is nothing. -/
def addModel (backend : Backend) (set : DeclarationSet) (r : FileReport) (m : ClassModel) : FileReport :=
  match Artifact.ofModel backend set m with
  | .ok artifact => { r with artifacts := r.artifacts ++ [artifact] }
  | .error e =>
    let diagnostic := Diagnostic.ofFailure m.header.fullName e.message m.span
    { r with diagnostics := r.diagnostics ++ [diagnostic], errors := r.errors + 1 }

/-- The report on a parsed file. -/
def ofDeclarations (mode : Mode) (set : DeclarationSet) : FileReport :=
  let a := set.analyze
  let r : FileReport :=
    ⟨set.sourceName, set.sourceText, a.findings.map Finding.diagnostic, a.errorCount, a.warningCount, []⟩
  match mode with
  | .check => r
  | .emit backend => a.models.foldl (addModel backend set) r

/-- The report on a text. -/
def ofText (conventions : Conventions) (mode : Mode) (path text : String) : FileReport :=
  match DeclarationSet.parse path text conventions with
  | .ok set => ofDeclarations mode set
  | .error e => ⟨path, text, e.diagnostics, e.diagnostics.length, 0, []⟩

/-- The report on a file; none if it cannot be read. -/
def ofFile? (files : Files) (conventions : Conventions) (mode : Mode) (path : String) : Option FileReport :=
  (files.read? path).map (ofText conventions mode path)

/-- The diagnostics, with lines and columns. -/
def diagnosticsJson (r : FileReport) : List Json := r.diagnostics.map (Diagnostic.toJson r.path r.text)

end FileReport

/-- How many files were written, and how many would have stayed the same. -/
structure WriteCount where
  written : Nat
  unchanged : Nat
deriving DecidableEq, Repr

namespace WriteCount

instance : Zero WriteCount := ⟨⟨0, 0⟩⟩

instance : Add WriteCount := ⟨fun a b => ⟨a.written + b.written, a.unchanged + b.unchanged⟩⟩

end WriteCount

/-- Why artifacts cannot be written. -/
inductive WriteError
  | folder (path : String)
  | file (path : String)
deriving DecidableEq, Repr

/-- The wording of the error. -/
def WriteError.message : WriteError → String
  | folder path => "failed to create " ++ path
  | file path => "failed to write " ++ path

/-- Writing files; what was written before an error stays. -/
abbrev Writing := EStateM WriteError Files

namespace Files

/-- The patch in a file. -/
def readPatch? (f : Files) (path : String) : Option PatchModule := f.read? path >>= PatchModule.ofStored?

/-- Writes an artifact into a folder that has the path `folder` and is found at `way`. -/
def writeArtifact (skipsUnchanged : Bool) (folder : String) (way : List String) (a : Artifact) : Writing WriteCount := do
  let f ← get
  if skipsUnchanged && f.text? (way ++ Path.split a.fileName) = some a.contents then return ⟨0, 1⟩
  match f.write? way a.fileName a.contents with
  | some f =>
    set f
    return ⟨1, 0⟩
  | none => throw (.file (Path.join folder a.fileName))

/-- Writes artifacts into a folder. -/
def writeArtifacts (skipsUnchanged : Bool) (folder : String) (artifacts : List Artifact) : Writing WriteCount := do
  match (← get).folder? folder with
  | none => throw (.folder folder)
  | some way =>
    artifacts.foldlM (fun count a => do return count + (← writeArtifact skipsUnchanged folder way a)) 0

end Files

end Reactive
