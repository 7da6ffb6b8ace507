import Reactive.Decimal

/-!
# Reactive.CommandLine.Request — what the arguments of the command line ask for

Arguments are read from the left.  Before the name of the command and behind it stand flags; some of them take a value,
in the same argument or in the next one.  What else stands behind the command names inputs.  `Invocation.ofArguments` says
what is asked for, or that the arguments make no sense.
-/

namespace Reactive.CommandLine

/-- How diagnostics are told. -/
inductive Format
  | human
  | json
deriving DecidableEq, Repr

/-- The format of a name. -/
def Format.ofName? : String → Option Format
  | "human" => some human
  | "json" => some json
  | _ => none

/-- A command. -/
inductive Verb
  | check
  | generate
  | patch
  | build
deriving DecidableEq, Repr

/-- The command of a name. -/
def Verb.ofName? : String → Option Verb
  | "check" => some check
  | "generate" => some generate
  | "patch" => some patch
  | "build" => some build
  | _ => none

/-! ### Flags -/

/-- What stands behind a hyphen. -/
inductive Flag
  | config
  | format
  | color
  | verbose
  | quiet
  | jobs
  | help
  | version
  | outDir
  | dump
  | force
deriving DecidableEq, Repr

namespace Flag

/-- All flags. -/
def all : List Flag := [config, format, color, verbose, quiet, jobs, help, version, outDir, dump, force]

/-- The name behind two hyphens. -/
def longName : Flag → String
  | config => "config"
  | format => "format"
  | color => "color"
  | verbose => "verbose"
  | quiet => "quiet"
  | jobs => "jobs"
  | help => "help"
  | version => "version"
  | outDir => "out-dir"
  | dump => "dump"
  | force => "force"

/-- The letter behind one hyphen. -/
def letter? : Flag → Option Char
  | verbose => some 'v'
  | quiet => some 'q'
  | jobs => some 'j'
  | help => some 'h'
  | version => some 'V'
  | outDir => some 'o'
  | _ => none

/-- The flag takes a value. -/
def takesValue : Flag → Bool
  | config | format | color | jobs | outDir => true
  | _ => false

/-- The flag may stand behind a command, or before any. -/
def isFor : Option Verb → Flag → Bool
  | none, version => true
  | some v, outDir => v ≠ .check
  | some v, force => v = .generate || v = .patch
  | some v, dump => v = .patch
  | _, version | _, outDir | _, force | _, dump => false
  | _, _ => true

/-- The number of workers: digits, perhaps behind a plus sign, that fit 64 bits. -/
def isJobCount (text : String) : Bool :=
  let digits := match text.toList with
    | '+' :: ds => ds
    | ds => ds
  !digits.isEmpty && digits.all Char.isDigit && Double.natOfDigits digits < UInt64.size

/-- The flag can have the value. -/
def accepts : Flag → String → Bool
  | config, v | outDir, v => !v.isEmpty
  | format, v => (Format.ofName? v).isSome
  | jobs, v => isJobCount v
  | _, _ => true

end Flag

/-! ### Reading -/

/-- What is asked for. -/
structure Request where
  verb : Verb
  inputs : List String
  config : Option String
  format : Format
  isQuiet : Bool
  outDir : Option String
  /-- Listings are printed, and nothing is written. -/
  dumps : Bool
  /-- Files are written even if they stay the same. -/
  isForced : Bool
deriving DecidableEq, Repr

/-- What the command line is called for. -/
inductive Invocation
  | help
  | version
  | misuse
  | request (r : Request)
deriving DecidableEq, Repr

/-- What has been read: the command with the flags before it, the flags of this side of it, and the inputs. -/
structure Progress where
  verb : Option Verb
  before : List (Flag × String)
  flags : List (Flag × String)
  inputs : List String
deriving DecidableEq, Repr

namespace Progress

/-- Nothing has been read. -/
def empty : Progress := ⟨none, [], [], []⟩

/-- Adds a flag; help and version end the reading, and only being verbose can be asked for more than once. -/
def addFlag (p : Progress) (f : Flag) (value : String) : Except Invocation Progress :=
  if !f.isFor p.verb || !f.accepts value then throw .misuse
  else if f = .help then throw .help
  else if f = .version then throw .version
  else if f ≠ .verbose && p.flags.any (·.1 = f) then throw .misuse
  else return { p with flags := p.flags ++ [(f, value)] }

/-- Adds what stands without a hyphen: the command, or an input of it. -/
def addWord (p : Progress) (word : String) : Except Invocation Progress :=
  match p.verb with
  | some _ => return { p with inputs := p.inputs ++ [word] }
  | none =>
    match Verb.ofName? word with
    | some v => return { p with verb := some v, before := p.flags, flags := [] }
    | none => throw .misuse

/-- Adds what stands behind two hyphens, and says which flag waits for its value. -/
def addLong (p : Progress) (text : List Char) : Except Invocation (Progress × Option Flag) :=
  let name := String.ofList (text.takeWhile (· ≠ '='))
  match Flag.all.find? (·.longName = name), text.dropWhile (· ≠ '=') with
  | none, _ => throw .misuse
  | some f, [] =>
    if f.takesValue && f.isFor p.verb then return (p, some f) else return (← p.addFlag f "", none)
  | some f, _ :: value =>
    if f.takesValue then return (← p.addFlag f (String.ofList value), none) else throw .misuse

/-- Adds the letters behind one hyphen, and says which flag waits for its value. -/
def addLetters (p : Progress) : List Char → Except Invocation (Progress × Option Flag)
  | [] => return (p, none)
  | c :: cs =>
    match Flag.all.find? (·.letter? = some c) with
    | none => throw .misuse
    | some f =>
      if !f.takesValue then do addLetters (← p.addFlag f "") cs
      else if !f.isFor p.verb then throw .misuse
      else
        match cs with
        | [] => return (p, some f)
        | '=' :: value => return (← p.addFlag f (String.ofList value), none)
        | value => return (← p.addFlag f (String.ofList value), none)

/-- Adds an argument, and says which flag waits for its value. -/
def addArgument (p : Progress) (argument : String) : Except Invocation (Progress × Option Flag) :=
  match argument.toList with
  | '-' :: '-' :: text => p.addLong text
  | '-' :: c :: cs => p.addLetters (c :: cs)
  | _ => do return (← p.addWord argument, none)

/-- The argument is no value. -/
def isFlagLike (argument : String) : Bool :=
  match argument.toList with
  | '-' :: _ :: _ => true
  | _ => false

/-- What stands behind `help` is nothing, or the one command that help is wanted for. -/
def isHelpTopic : List String → Bool
  | [] => true
  | [topic] => topic = "help" || (Verb.ofName? topic).isSome
  | _ => false

/-- Adds all arguments; behind `--` no more flags are meant, and the command has to stand before it.  In place of a
command, `help` takes the rest for itself. -/
def addAll (p : Progress) : List String → Except Invocation Progress
  | [] => return p
  | "--" :: rest =>
    if p.verb.isNone then throw .misuse else return { p with inputs := p.inputs ++ rest }
  | argument :: rest => do
    if p.verb.isNone && argument = "help" then throw (if isHelpTopic rest then .help else .misuse)
    let (p, waiting) ← p.addArgument argument
    match waiting, rest with
    | none, rest => addAll p rest
    | some _, [] => throw .misuse
    | some f, value :: rest => if isFlagLike value then throw .misuse else addAll (← p.addFlag f value) rest

/-- The value of a flag; behind the command it counts more than before it. -/
def value? (p : Progress) (f : Flag) : Option String := (p.flags.lookup f).or (p.before.lookup f)

/-- The request, if there is a command. -/
def request? (p : Progress) : Option Request :=
  p.verb.map fun verb =>
    { verb, inputs := p.inputs, config := p.value? .config,
      format := (p.value? .format >>= Format.ofName?).getD .human, isQuiet := (p.value? .quiet).isSome,
      outDir := p.value? .outDir, dumps := (p.value? .dump).isSome, isForced := (p.value? .force).isSome }

end Progress

/-- What arguments ask for. -/
def Invocation.ofArguments (arguments : List String) : Invocation :=
  match Progress.empty.addAll arguments with
  | .error ending => ending
  | .ok p =>
    match p.request? with
    | some r => .request r
    | none => .misuse

end Reactive.CommandLine
