import Reactive.Declaration
import Reactive.Files
import Reactive.Text.Word
import Reactive.Toml

/-!
# Reactive.Config — the configuration of a project

Three tables: which files are read and where results go, the conventions, and what is generated.  All of it has
defaults.  A table may also be given as the array of its values in their order.  The names of the conventions have to be
identifiers.
-/

namespace Reactive

/-- What is generated. -/
inductive Backend
  | source
  | patch
deriving DecidableEq, Repr

/-- The back-end of a name. -/
def Backend.ofName? : String → Option Backend
  | "source" => some source
  | "patch" => some patch
  | _ => none

/-- The configuration of a project. -/
structure Config where
  /-- The patterns that choose the files. -/
  inputs : List String
  outDir : String
  conventions : Conventions
  backend : Backend
  /-- A file that would stay the same is not written. -/
  skipsUnchanged : Bool
deriving DecidableEq, Repr

instance : Inhabited Config := ⟨["**/*.rxd"], "generated", default, .source, true⟩

/-- Why there is no configuration. -/
inductive ConfigError
  | unreadable (path : String)
  | malformed
  | notIdentifier (key value : String)
deriving DecidableEq, Repr

/-- The wording of the error. -/
def ConfigError.message : ConfigError → String
  | unreadable path => "Failed to read " ++ path
  | malformed => "Failed to parse configuration"
  | notIdentifier key value => "Invalid configuration: " ++ key ++ " must be an identifier, got '" ++ value ++ "'"

namespace Config

/-- A letter or underscore, and then letters, numbers and underscores. -/
def isIdentifier (name : String) : Bool :=
  match name.toList with
  | [] => false
  | c :: cs => (Text.isLetter c || c = '_') && cs.all fun c => Text.isWordChar c || c = '_'

/-- A value of a table, by its key or, if the table is an array, by its place. -/
def setting (d : TomlDocument) (table key : String) (place : Nat) : Except ConfigError (Option TomlValue) :=
  match d.value? [table] with
  | some (.array items) => .ok items[place]?
  | some _ => .error .malformed
  | none =>
    match d.value? [table, key] with
    | some v => .ok (some v)
    | none => if d.hasTable [table, key] then .error .malformed else .ok none

/-- A value of a table as what it has to be, or the default. -/
def read {α : Type} (d : TomlDocument) (table key : String) (place : Nat) (as : TomlValue → Option α) (default : α) :
    Except ConfigError α := do
  match ← setting d table key place with
  | none => return default
  | some v =>
    match as v with
    | some a => return a
    | none => throw .malformed

/-- The back-end, or the default.  In place of its name there may be a table that holds nothing but something vacant of
that name. -/
def readBackend (d : TomlDocument) (default : Backend) : Except ConfigError Backend :=
  let path := ["emit", "backend"]
  match d.names path with
  | [name] =>
    match Backend.ofName? name with
    | some b => if d.isVacant (path ++ [name]) then .ok b else .error .malformed
    | none => .error .malformed
  | _ => read d "emit" "backend" 0 (fun v => v.string? >>= Backend.ofName?) default

/-- The names of the conventions with their keys. -/
def conventionNames (c : Conventions) : List (String × String) :=
  [("reactive.interface", c.interface), ("reactive.extensible_base", c.extensibleBase),
    ("reactive.init_method", c.initMethod)]

/-- The configuration that a document says. -/
def ofDocument (d : TomlDocument) : Except ConfigError Config := do
  let base : Config := default
  let inputs ← read d "project" "inputs" 0 TomlValue.strings? base.inputs
  let outDir ← read d "project" "out_dir" 1 TomlValue.string? base.outDir
  let interface ← read d "reactive" "interface" 0 TomlValue.string? base.conventions.interface
  let extensibleBase ← read d "reactive" "extensible_base" 1 TomlValue.string? base.conventions.extensibleBase
  let initMethod ← read d "reactive" "init_method" 2 TomlValue.string? base.conventions.initMethod
  let backend ← readBackend d base.backend
  let skipsUnchanged ← read d "emit" "skip_unchanged" 1 TomlValue.bool? base.skipsUnchanged
  let conventions : Conventions := ⟨interface, extensibleBase, initMethod⟩
  match (conventionNames conventions).find? fun e => !isIdentifier e.2 with
  | some (key, value) => throw (.notIdentifier key value)
  | none => return ⟨inputs, outDir, conventions, backend, skipsUnchanged⟩

/-- The configuration that a text says. -/
def parse (text : String) : Except ConfigError Config :=
  match TomlDocument.parse? text with
  | some d => ofDocument d
  | none => .error .malformed

/-- The file that holds the configuration if nothing else is said. -/
def fileName : String := "rxweave.toml"

/-- The configuration in a file. -/
def ofFile (files : Files) (path : String) : Except ConfigError Config :=
  match files.read? path with
  | some text => parse text
  | none => .error (.unreadable path)

/-- The configuration in the file that is asked for, or in the usual one, which need not be there. -/
def load (files : Files) : Option String → Except ConfigError Config
  | some path => ofFile files path
  | none => if files.isThere fileName then ofFile files fileName else .ok default

end Config

end Reactive
