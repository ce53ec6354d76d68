import SqlQuery.Dialect
import SqlQuery.Keyword
import SqlQuery.Text.Blank
import SqlQuery.Text.Quoted
import SqlQuery.Tree

/-!
Marks: the pieces of written text, and how a dialect spells them.
-/

namespace SqlQuery

/-- Why a tree cannot be written. -/
inductive WriteError where
  | invalidKeyword (value : String)
  | emptyKeyword
  | incompleteWindow (name : String)
  | tooDeep (limit : Nat)
  deriving DecidableEq, Repr

def WriteError.message : WriteError → String
  | .invalidKeyword value => "Invalid keyword: `" ++ value ++ "`"
  | .emptyKeyword => "Invalid keyword: empty string"
  | .incompleteWindow name => "Window `" ++ name ++ "` needs `partition by` or `order by`"
  | .tooDeep limit => "Nesting deeper than " ++ toString limit ++ " levels"

/--
A piece of written text. Names, the names of calls and parameters are spelled as the dialect wants
it, a plain mark as it is.
-/
inductive Mark where
  | blank
  | plain (text : String)
  | name (name : String)
  | call (name : String)
  | literal (value : Literal)
  /-- A specifier that touches its string. -/
  | specified (specifier : String) (value : Literal)
  | parameter (name : String)
  deriving DecidableEq, Repr

abbrev Draft := Except WriteError (List Mark)

abbrev Written := Except WriteError String

/-- A name that is read back as one word. -/
def isBareWord (name : String) : Bool :=
  match name.toList with
  | [] => false
  | c :: cs =>
    (c.isAlpha || c == '_') && cs.all fun c => Text.isAlphanum c || c == '_' || c == '$'

/-- Without quotes the name would not be read back as itself, or not with every text after it. -/
def needsQuotes (name : String) : Bool :=
  let word := Text.lower name
  !isBareWord name || Keyword.isComplete word || Keyword.isExtendable word

/-- In front of a parenthesis a name may start a phrase, so only reserved words need quotes. -/
def callNeedsQuotes (name : String) : Bool :=
  !isBareWord name || Keyword.isReserved (Text.lower name)

namespace Dialect

variable (d : Dialect)

def quote (name : String) : List Char :=
  d.quotes.opening.toList ++ Text.doubledMark d.quotes.closing.toList name.toList ++
    d.quotes.closing.toList

def spellName (name : String) : List Char :=
  if name == wildcardName then name.toList
  else match d.quotePolicy with
    | .always => d.quote name
    | .whenNeeded => if needsQuotes name then d.quote name else name.toList

def spellCall (name : String) : List Char :=
  if callNeedsQuotes name then d.quote name else name.toList

def spellParameter (name : String) : List Char :=
  match d.parameterStyle with
  | .named => d.parameterSymbol.toList ++ name.toList
  | .anonymous => ['?']

end Dialect

def spellString (value : String) : List Char :=
  '\x27' :: Text.doubled '\x27' value.toList ++ ['\x27']

def Literal.spell : Literal → List Char
  | .number text => text.toList
  | .string value => spellString value
  | .boolean true => "true".toList
  | .boolean false => "false".toList
  | .null => "null".toList

namespace Mark

def spell (d : Dialect) : Mark → List Char
  | .blank => [' ']
  | .plain text => text.toList
  | .name text => d.spellName text
  | .call text => d.spellCall text
  | .literal value => value.spell
  | .specified specifier value => specifier.toList ++ value.spell
  | .parameter text => d.spellParameter text

def spellAll (d : Dialect) (marks : List Mark) : List Char := marks.flatMap (spell d)

end Mark

def commaSeparated (parts : List (List Mark)) : List Mark :=
  List.intercalate [.plain ",", .blank] parts

def spaced (parts : List (List Mark)) : List Mark := List.intercalate [.blank] parts

def writeWords (words : List String) : List Mark := spaced (words.map fun word => [.plain word])

def inParens (inner : List Mark) : List Mark := .plain "(" :: inner ++ [.plain ")"]

/-- Marks that would change what the text around them means. -/
def invalidKeywords : List String := ["\x27", "\"", ",", ";", ":", ".", "--", "/*"]

/-- The text of a keyword, operator or bare name, which is written as it is. -/
def rawText (text : String) : Except WriteError String :=
  let value := Text.trim text
  if value.isEmpty then .error .emptyKeyword
  else if invalidKeywords.contains value then .error (.invalidKeyword value)
  else .ok value

def writeRaw (text : String) : Draft := return [.plain (← rawText text)]

def writeNames (names : List String) : List Mark :=
  commaSeparated (names.map fun name => [.name name])

/-- Puts the namespaces in front of a mark. -/
def qualify (namespaces : List String) (mark : Mark) : List Mark :=
  List.intercalate [.plain "."] (namespaces.map (fun name => [.name name]) ++ [[mark]])

def ColumnRef.marks (ref : ColumnRef) : List Mark := qualify ref.namespaces (.name ref.column)

def TableRef.marks (ref : TableRef) : List Mark := qualify ref.namespaces (.name ref.table)

def SourceAlias.marks (a : SourceAlias) : List Mark :=
  if a.columns.isEmpty then [.name a.name]
  else .name a.name :: inParens (writeNames a.columns)

/-- Specifiers that touch the quote of their string. -/
def tightSpecifiers : List String := ["e", "x", "b", "u&"]

def writeSpecified (specifier : String) (value : Literal) : Draft := do
  let specifier ← rawText specifier
  if tightSpecifiers.contains (Text.lower specifier) then return [.specified specifier value]
  else return [.plain specifier, .blank, .literal value]

def SortDirection.text : SortDirection → String
  | .asc => "asc"
  | .desc => "desc"

def NullsPosition.text : NullsPosition → String
  | .first => "nulls first"
  | .last => "nulls last"

def FrameUnit.text : FrameUnit → String
  | .rows => "rows"
  | .range => "range"
  | .groups => "groups"

def FetchPosition.text : FetchPosition → String
  | .first => "first"
  | .next => "next"

def FetchUnit.words : FetchUnit → List String
  | .rowsOnly => ["rows", "only"]
  | .percent => ["percent", "rows", "only"]
  | .withTies => ["rows", "with", "ties"]

def LockMode.words : LockMode → List String
  | .update => ["update"]
  | .noKeyUpdate => ["no", "key", "update"]
  | .share => ["share"]
  | .keyShare => ["key", "share"]

end SqlQuery
