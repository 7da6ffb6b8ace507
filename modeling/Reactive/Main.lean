import Reactive.CommandLine

/-!
# Reactive.Main — the program

Reads the files of the working folder, runs the command line on them, prints what it prints and writes the files that
have changed.
-/

namespace Reactive

/-- The files at and below an entry of a folder to which `way` leads; files that hold no text are left out. -/
partial def readEntry (way : List String) (entry : IO.FS.DirEntry) : IO (List (List String × String)) := do
  let way := way ++ [entry.fileName]
  match ← entry.path.readDir.toBaseIO with
  | .ok entries => return (← entries.toList.mapM (readEntry way)).flatten
  | .error _ =>
    match ← (IO.FS.readFile entry.path).toBaseIO with
    | .ok text => return [(way, text)]
    | .error _ => return []

/-- The files of the working folder. -/
def readFiles : IO Files := do
  let entries ← (← IO.currentDir).readDir
  return ⟨(← entries.toList.mapM (readEntry [])).flatten⟩

/-- Writes the files that are new or have changed. -/
def writeChanges (before after : Files) : IO Unit :=
  after.entries.forM fun (way, text) => do
    unless before.text? way = some text do
      IO.FS.createDirAll ("/".intercalate ("." :: way.dropLast))
      IO.FS.writeFile ("/".intercalate way) text

end Reactive

open Reactive

def main (arguments : List String) : IO UInt32 := do
  let files ← readFiles
  let outcome := CommandLine.run files arguments
  (← IO.getStdout).putStr outcome.console.output
  (← IO.getStderr).putStr outcome.console.messages
  writeChanges files outcome.console.files
  return outcome.exitCode.toUInt32
