/-!
Arguments of the command line: a command with an optional file, and options before or after it.
-/

namespace SqlQuery.CommandLine

/-- Where the dialect of the output comes from. -/
structure DialectChoice where
  name : String
  config : Option String
  quoteAll : Bool
  deriving DecidableEq, Repr

inductive Action where
  | format (dialect : DialectChoice)
  | tokens
  | ast
  | check
  deriving DecidableEq, Repr

/-- What to do with the text of the file, or of the standard input where there is none. -/
structure Command where
  action : Action
  file : Option String
  deriving DecidableEq, Repr

inductive Request where
  | run (command : Command)
  | help
  | version
  deriving DecidableEq, Repr

/-- An option, and whether it takes a value. -/
inductive Flag where
  | verbose
  | quoteAll
  | dialect
  | config
  | help
  | version
  deriving DecidableEq, Repr

def Flag.takesValue : Flag → Bool
  | .dialect | .config => true
  | _ => false

/-- The spellings of options that one place on the command line admits. -/
structure Spellings where
  short : List (Char × Flag)
  long : List (String × Flag)

def Spellings.common : Spellings :=
  ⟨[('v', .verbose), ('h', .help)], [("verbose", .verbose), ("help", .help)]⟩

/-- Before the command. -/
def Spellings.leading : Spellings :=
  ⟨('V', .version) :: common.short, ("version", .version) :: common.long⟩

/-- After the command that formats. -/
def Spellings.formatting : Spellings :=
  ⟨('d', .dialect) :: ('c', .config) :: common.short,
   ("dialect", .dialect) :: ("config", .config) :: ("quote-all", .quoteAll) :: common.long⟩

/-- An argument taken apart. A value that an option still lacks is the next argument. -/
inductive Item where
  | flag (flag : Flag)
  | value (flag : Flag) (text : String)
  | operand (text : String)
  | unknown
  deriving DecidableEq, Repr

/-- The options of one argument after its dash, the last of which may take the rest as its value.
Nothing is read behind a letter that is no option. -/
def shortItems (spellings : Spellings) : List Char → List Item
  | [] => []
  | c :: cs =>
    match spellings.short.lookup c with
    | none => [.unknown]
    | some flag =>
      if flag.takesValue then
        match cs with
        | [] => [.flag flag]
        | '=' :: text => [.value flag (String.ofList text)]
        | text => [.value flag (String.ofList text)]
      else .flag flag :: shortItems spellings cs

/-- The option of an argument after its two dashes. -/
def longItem (spellings : Spellings) (cs : List Char) : Item :=
  match spellings.long.lookup (String.ofList (cs.takeWhile (· != '='))) with
  | none => .unknown
  | some flag =>
    match cs.dropWhile (· != '=') with
    | [] => .flag flag
    | _ :: text => if flag.takesValue then .value flag (String.ofList text) else .unknown

def itemsOf (spellings : Spellings) (argument : String) : List Item :=
  match argument.toList with
  | '-' :: '-' :: cs => [longItem spellings cs]
  | '-' :: c :: cs => shortItems spellings (c :: cs)
  | _ => [.operand argument]

/-- An argument that is no option, or the single dash. -/
def isPlain (argument : String) : Bool := argument == "-" || argument.toList.head? != some '-'

/-- What the arguments after a command have set so far. -/
structure Settings where
  verbose : Bool
  quoteAll : Bool
  dialect : Option String
  config : Option String
  file : Option String
  deriving DecidableEq, Repr

def Settings.none : Settings := ⟨false, false, .none, .none, .none⟩

/-- The settings, unless the arguments ask for help or are in error. -/
inductive Progress where
  | settings (s : Settings)
  | help
  | version
  | usageError
  deriving DecidableEq, Repr

namespace Settings

/-- Sets an option without a value, which may be given once. -/
def setFlag (s : Settings) : Flag → Progress
  | .verbose => if s.verbose then .usageError else .settings { s with verbose := true }
  | .quoteAll => if s.quoteAll then .usageError else .settings { s with quoteAll := true }
  | .help => .help
  | .version => .version
  | .dialect | .config => .usageError

/-- Sets an option with a value, which may be given once. The name of a file is not empty. -/
def setValue (s : Settings) (flag : Flag) (text : String) : Progress :=
  match flag with
  | .dialect => if s.dialect.isSome then .usageError else .settings { s with dialect := text }
  | .config =>
    if s.config.isSome || text.isEmpty then .usageError else .settings { s with config := text }
  | _ => .usageError

def setFile (s : Settings) (text : String) : Progress :=
  if s.file.isSome || text.isEmpty then .usageError else .settings { s with file := text }

def setItem (s : Settings) : Item → Progress
  | .flag flag => s.setFlag flag
  | .value flag text => s.setValue flag text
  | .operand text => s.setFile text
  | .unknown => .usageError

end Settings

namespace Progress

def step (p : Progress) (f : Settings → Progress) : Progress :=
  match p with
  | .settings s => f s
  | p => p

def setItems (p : Progress) (items : List Item) : Progress :=
  items.foldl (fun p item => p.step fun s => s.setItem item) p

end Progress

/-- The option at the end of the items that still lacks its value. -/
def lacking (items : List Item) : Option Flag :=
  match items.getLast? with
  | some (.flag flag) => if flag.takesValue then some flag else none
  | _ => none

/-- Reads the arguments after a command. After two dashes every argument is an operand. The first
request for help and the first error decide, whatever comes after them. -/
def readSettings (spellings : Spellings) (p : Progress) : List String → Progress
  | [] => p
  | "--" :: rest => rest.foldl (fun p text => p.step fun s => s.setFile text) p
  | argument :: rest =>
    let items := itemsOf spellings argument
    match lacking items with
    | none => readSettings spellings (p.setItems items) rest
    | some flag =>
      let p := p.setItems items.dropLast
      match rest with
      | [] => p.step fun _ => .usageError
      | text :: rest =>
        if isPlain text then readSettings spellings (p.step fun s => s.setValue flag text) rest
        else p.step fun _ => .usageError

def defaultDialect : String := "generic"

/-- The command under its name, with the spellings of the options that may follow it. -/
def commands (inherited : Option String) : List (String × Spellings × (Settings → Action)) :=
  [("format", .formatting, fun s =>
      .format ⟨(s.dialect.or inherited).getD defaultDialect, s.config, s.quoteAll⟩),
   ("tokens", .common, fun _ => .tokens),
   ("ast", .common, fun _ => .ast),
   ("check", .common, fun _ => .check)]

/-- Help may be asked for by name of a command. -/
def readHelp (inherited : Option String) : List String → Option Request
  | [] => some .help
  | [name] =>
    if name == "help" || ((commands inherited).lookup name).isSome then some .help else none
  | _ => none

def readCommand (inherited : Option String) (name : String) (rest : List String) :
    Option Request := do
  if name == "help" then readHelp inherited rest
  else
    let (spellings, action) ← (commands inherited).lookup name
    match readSettings spellings (.settings .none) rest with
    | .settings s => some (.run ⟨action s, s.file⟩)
    | .help => some .help
    | .version => some .version
    | .usageError => none

/-- Reads the options in front of the command, and then the command. -/
def readLeading (inherited : Option String) (p : Progress) : List String → Option Request
  | [] => match p with
    | .help => some .help
    | .version => some .version
    | _ => none
  | argument :: rest =>
    match p with
    | .help => some .help
    | .version => some .version
    | .usageError => none
    | .settings _ =>
      if isPlain argument then readCommand inherited argument rest
      else readLeading inherited (p.setItems (itemsOf .leading argument)) rest

/-- The request that the arguments make, if they make sense. A dialect may be inherited. -/
def request (inherited : Option String) (arguments : List String) : Option Request :=
  readLeading inherited (.settings .none) arguments

end SqlQuery.CommandLine
