import SqlQuery.Text.Class
import SqlQuery.Tree

/-!
The values that literal tokens stand for.
-/

namespace SqlQuery

/-- What stands between the quotes of a string; a text that is not quoted is left alone. -/
def withoutQuotes (cs : List Char) : List Char :=
  match cs with
  | '\x27' :: body => if body.getLast? == some '\x27' then body.dropLast else cs
  | _ => cs

/-- Resolves doubled and escaped quotes. Every other backslash is kept with what follows it. -/
def unescape : List Char → List Char
  | [] => []
  | '\\' :: '\x27' :: cs => '\x27' :: unescape cs
  | '\\' :: c :: cs => '\\' :: c :: unescape cs
  | '\x27' :: cs => '\x27' :: unescape (cs.drop 1)
  | c :: cs => c :: unescape cs
termination_by cs => cs.length

def unquote (cs : List Char) : String := String.ofList (unescape (withoutQuotes cs))

def isQuoted (text : String) : Bool := text.toList.head? == some '\x27'

def Literal.ofText (text : String) : Literal :=
  if isQuoted text then .string (unquote text.toList) else .number text

/-- Splits a string constant into its specifier and its value. -/
def Expr.ofSpecified (text : String) : Expr :=
  let specifier := text.toList.takeWhile (· != '\x27')
  let body := text.toList.dropWhile (· != '\x27')
  .specifiedString (String.ofList specifier) (.string (unquote body))

end SqlQuery
