import Reactive.CommandLine.Request
import Reactive.FileReport
import Reactive.PathPattern

/-!
# Reactive.CommandLine — running the command line

`CommandLine.run` takes the files of the working folder and the arguments, and gives the files that are there afterwards,
what is printed, and the exit code: zero if all is well, one if declarations have errors, and two if nothing could be
done.  A run is a sequence of actions on a `Console`; what was printed and written before a failure stays.
-/

namespace Reactive

/-- Why a run ends early. -/
inductive RunError
  | config (cause : ConfigError)
  | input (cause : InputError)
  | unreadable (path : String)
  | write (cause : WriteError)
deriving DecidableEq, Repr

/-- The wording of the error. -/
def RunError.message : RunError → String
  | config cause => cause.message
  | input cause => cause.message
  | unreadable path => "failed to read " ++ path
  | write cause => cause.message

namespace Diagnostic

/-- The diagnostic in one line, and the place of its main label in a second one. -/
def brief (file text : String) (d : Diagnostic) : String :=
  let place := d.labels.head?.bind fun l => Position.origin.atOffset l.span.start text.toList
  (if d.isError then "error[" else "warning[") ++ d.code ++ "]: " ++ d.message ++ "\n"
    ++ match place with
      | some p => "  --> " ++ file ++ ":" ++ toString p.line ++ ":" ++ toString p.column ++ "\n"
      | none => ""

end Diagnostic

namespace CommandLine

/-- The files, and what has been printed to the two outputs. -/
structure Console where
  files : Files
  output : String
  messages : String
deriving DecidableEq, Repr

/-- An action on a console, which may end the run. -/
abbrev Job := EStateM RunError Console

namespace Job

/-- A result that may be missing, with why. -/
def ofResult {ε α : Type} (error : ε → RunError) : Except ε α → Job α
  | .ok a => return a
  | .error e => throw (error e)

/-- Writes files. -/
def ofWriting {α : Type} (w : Writing α) : Job α := fun c =>
  match w c.files with
  | .ok a files => .ok a { c with files }
  | .error e files => .error (.write e) { c with files }

/-- Prints to the output. -/
def print (text : String) : Job Unit := modify fun c => { c with output := c.output ++ text }

/-- Prints to the messages. -/
def tell (text : String) : Job Unit := modify fun c => { c with messages := c.messages ++ text }

/-- Tells what has been done, behind a label that ends at the tenth column. -/
def status (isQuiet : Bool) (label text : String) : Job Unit :=
  if isQuiet then return
  else tell (String.ofList (List.replicate (10 - label.length) ' ') ++ label ++ " " ++ text ++ "\n")

end Job

open Job

/-- Tells how many errors and warnings there are; errors are told even when quiet. -/
def summary (isQuiet : Bool) (errors warnings : Nat) : Job Unit :=
  let counts := toString errors ++ " error(s), " ++ toString warnings ++ " warning(s)"
  if errors > 0 then status false "Failed" counts
  else status isQuiet "Finished" (if warnings > 0 then counts else "no diagnostics")

/-- Tells the diagnostics of a report. -/
def tellDiagnostics (format : Format) (r : FileReport) : Job Unit :=
  match format with
  | .json => r.diagnosticsJson.forM fun j => print (j.pretty ++ "\n")
  | .human => r.diagnostics.forM fun d => tell (d.brief r.path r.text)

/-- The report on a file that is there. -/
def reportOn (conventions : Conventions) (mode : Mode) (path : String) : Job FileReport := do
  match FileReport.ofFile? (← get).files conventions mode path with
  | some r => return r
  | none => throw (.unreadable path)

/-- Writes what was generated, and tells it. -/
def writeReport (isQuiet skipsUnchanged : Bool) (label folder : String) (r : FileReport) : Job WriteCount := do
  let count ← ofWriting (Files.writeArtifacts skipsUnchanged folder r.artifacts)
  r.artifacts.forM fun a => status isQuiet label a.fileName
  return count

/-- Writes what was generated for all files, and tells it. -/
def writeReports (isQuiet skipsUnchanged : Bool) (label folder : String) (reports : List FileReport) : Job Unit := do
  let count ← reports.foldlM (fun count r => do return count + (← writeReport isQuiet skipsUnchanged label folder r)) 0
  if count.unchanged > 0 then
    status isQuiet "Unchanged" (toString count.unchanged ++ " file(s) already up to date")

namespace Request

/-- What is done with each file. -/
def mode (r : Request) (config : Config) : Mode :=
  match r.verb with
  | .check => .check
  | .generate => .emit .source
  | .patch => .emit .patch
  | .build => .emit config.backend

/-- What is done with the reports once their diagnostics have been told. -/
def deliver (r : Request) (config : Config) (reports : List FileReport) : Job Unit :=
  let folder := r.outDir.getD config.outDir
  let skipsUnchanged := config.skipsUnchanged && !r.isForced
  match r.mode config with
  | .check => reports.forM fun report => status r.isQuiet "Checked" report.path
  | .emit .source => writeReports r.isQuiet skipsUnchanged "Generated" folder reports
  | .emit .patch =>
    if r.dumps then (reports.flatMap FileReport.artifacts).forM fun a => print (a.listing.getD "")
    else writeReports r.isQuiet skipsUnchanged "Patched" folder reports

/-- Does what is asked for, and says whether there are errors. -/
def perform (r : Request) : Job Bool := do
  let config ← ofResult RunError.config (Config.load (← get).files r.config)
  let patterns := if r.inputs.isEmpty then config.inputs else r.inputs
  let inputs ← ofResult RunError.input ((← get).files.discover patterns)
  let reports ← inputs.mapM (reportOn config.conventions (r.mode config))
  reports.forM (tellDiagnostics r.format)
  r.deliver config reports
  let errors := reports.foldl (fun n report => n + report.errors) 0
  let warnings := reports.foldl (fun n report => n + report.warnings) 0
  summary r.isQuiet errors warnings
  return errors > 0

end Request

/-- What a run leaves behind. -/
structure Outcome where
  exitCode : Nat
  console : Console
deriving DecidableEq, Repr

/-- How the command line is used. -/
def usage : String :=
  "Usage: rxweave [OPTIONS] <COMMAND>\n\nCommands:\n"
    ++ "  check     Analyze declarations and print diagnostics\n"
    ++ "  generate  Generate partial classes\n"
    ++ "  patch     Generate patch modules\n"
    ++ "  build     Generate what the configuration selects\n"

/-- Runs a request on files. -/
def Request.run (r : Request) (files : Files) : Outcome :=
  match r.perform ⟨files, "", ""⟩ with
  | .ok hasErrors console => ⟨if hasErrors then 1 else 0, console⟩
  | .error e console => ⟨2, { console with messages := console.messages ++ "error: " ++ e.message ++ "\n" }⟩

/-- Runs the command line on files. -/
def run (files : Files) (arguments : List String) : Outcome :=
  match Invocation.ofArguments arguments with
  | .help => ⟨0, ⟨files, usage, ""⟩⟩
  | .version => ⟨0, ⟨files, "rxweave 0.1.0\n", ""⟩⟩
  | .misuse => ⟨2, ⟨files, "", usage⟩⟩
  | .request r => r.run files

end CommandLine

end Reactive
