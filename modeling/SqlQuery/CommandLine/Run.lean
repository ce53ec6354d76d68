import SqlQuery.CommandLine
import SqlQuery.Dialect.Json
import SqlQuery.Dialect.Preset
import SqlQuery.Parser.Query
import SqlQuery.Tree.Json
import SqlQuery.Writer.Node

/-!
Running a command on the texts it reads. A failure is reported with what was being done and why it
did not succeed.
-/

namespace SqlQuery.CommandLine

/-- Why a text cannot be read. -/
inductive ReadError where
  | missing
  | denied
  | insideFile
  | directory
  | longName
  | notText
  | other (text : String)
  deriving DecidableEq, Repr

/-- A path that goes on behind the name of a file is told from one that ends nowhere. -/
def ReadError.message : ReadError → String
  | .missing => "No such file or directory (os error 2)"
  | .denied => "Permission denied (os error 13)"
  | .insideFile => "Not a directory (os error 20)"
  | .directory => "Is a directory (os error 21)"
  | .longName => "File name too long (os error 36)"
  | .notText => "stream did not contain valid UTF-8"
  | .other text => text

/-- The standard input and files by name. -/
structure Inputs where
  stdin : Except ReadError String
  file : String → Except ReadError String

structure Outcome where
  exit : Nat
  stdout : String
  stderr : String
  deriving DecidableEq, Repr

/-- What failed, and the reason if something else failed first. -/
structure Failure where
  context : String
  cause : Option String
  deriving DecidableEq, Repr

abbrev Attempt := Except Failure

/-- Says what was being done when something failed. -/
def attempt {α ε : Type} (context : String) (message : ε → String) (result : Except ε α) :
    Attempt α :=
  result.mapError fun e => ⟨context, some (message e)⟩

def indentCause (cause : String) : String :=
  "    " ++ String.ofList (cause.toList.flatMap fun c =>
    if c == '\n' then "\n    ".toList else [c])

def Failure.report (f : Failure) : String :=
  match f.cause with
  | none => "Error: " ++ f.context ++ "\n"
  | some cause => "Error: " ++ f.context ++ "\n\nCaused by:\n" ++ indentCause cause ++ "\n"

def padLeft (width : Nat) (text : String) : String :=
  String.ofList (List.replicate (width - text.length) ' ') ++ text

def padRight (width : Nat) (text : String) : String :=
  text ++ String.ofList (List.replicate (width - text.length) ' ')

def lexemeLine (l : Lexeme) : String :=
  padLeft 6 (toString l.position) ++ "  " ++ padRight 24 l.kind.label ++ " " ++ l.text ++ "\n"

def Inputs.read (inputs : Inputs) : Option String → Attempt String
  | none => attempt "Failed to read stdin" ReadError.message inputs.stdin
  | some path => attempt ("Failed to read " ++ path) ReadError.message (inputs.file path)

def Inputs.parse (inputs : Inputs) (file : Option String) : Attempt Query := do
  let text ← inputs.read file
  attempt "Query does not parse" ParseError.message (Query.parse text Session.defaultLimit)

def DialectChoice.base (choice : DialectChoice) (inputs : Inputs) : Attempt Dialect :=
  match choice.config with
  | some path => do
    let text ← attempt ("Failed to read config " ++ path) ReadError.message (inputs.file path)
    match Dialect.ofJson? text with
    | some dialect => return dialect
    | none => throw ⟨"Invalid dialect config " ++ path, some "no dialect in JSON"⟩
  | none =>
    match Preset.named? choice.name with
    | some preset => return preset.dialect
    | none => throw ⟨"Unknown dialect " ++ quoted choice.name, none⟩

def DialectChoice.resolve (choice : DialectChoice) (inputs : Inputs) : Attempt Dialect := do
  let dialect ← choice.base inputs
  return if choice.quoteAll then dialect.quoteAll else dialect

/-- What a command prints, and what it tells on the error output. -/
def Command.output (command : Command) (inputs : Inputs) : Attempt (String × String) :=
  match command.action with
  | .format choice => do
    let dialect ← choice.resolve inputs
    let query ← inputs.parse command.file
    let written := (Node.query query).write dialect Node.defaultLimit
    let text ← attempt "Failed to format query" WriteError.message written
    return (text ++ "\n", "")
  | .tokens => do
    let text ← inputs.read command.file
    let lexemes ← attempt "Failed to tokenize query" ScanError.message (scan text).2
    return (String.join (lexemes.map lexemeLine), "")
  | .ast => do
    let query ← inputs.parse command.file
    return (query.toJson.pretty "" ++ "\n", "")
  | .check => do
    let _ ← inputs.parse command.file
    return ("", " INFO Query is valid.\n")

def Command.run (command : Command) (inputs : Inputs) : Outcome :=
  match command.output inputs with
  | .ok (stdout, stderr) => ⟨0, stdout, stderr⟩
  | .error failure => ⟨1, "", failure.report⟩

def usage : String :=
  "Usage: [-v] format [-d DIALECT] [-c CONFIG] [--quote-all] [FILE]\n" ++
    "       [-v] tokens|ast|check [FILE]\n"

def versionText : String := "0.1.0\n"

/-- Runs what the arguments ask for. -/
def run (inherited : Option String) (arguments : List String) (inputs : Inputs) : Outcome :=
  match request inherited arguments with
  | none => ⟨2, "", usage⟩
  | some .help => ⟨0, usage, ""⟩
  | some .version => ⟨0, versionText, ""⟩
  | some (.run command) => command.run inputs

/-- The files that the arguments name. -/
def filesNamed (inherited : Option String) (arguments : List String) : List String :=
  match request inherited arguments with
  | some (.run ⟨.format choice, file⟩) => choice.config.toList ++ file.toList
  | some (.run ⟨_, file⟩) => file.toList
  | _ => []

/-- No file stands in for the standard input. -/
def readsStdin (inherited : Option String) (arguments : List String) : Bool :=
  match request inherited arguments with
  | some (.run command) => command.file.isNone
  | _ => false

end SqlQuery.CommandLine
