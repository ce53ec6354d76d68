import SqlQuery.Grammar.Expression
import SqlQuery.Parser.Session

/-!
The parser of expressions. What the grammar nests opens a level and closes it by hand, in brackets only
after the closing one, so that a failure within them leaves the level open.
-/

namespace SqlQuery

/-- What the parser calls for what it nests, and how it closes a level. -/
structure Calls where
  expr : Nat → Parser Expr
  query : Parser Query
  leave : Parser Unit

namespace Parser

open Grammar (Suffix)

def checkKind (kind : Kind) : Parser Bool := check (isKind kind)

def eatKind (kind : Kind) : Parser Bool := eat (isKind kind)

def eatKeyword (keyword : String) : Parser Bool := eat fun t => t.isCommand keyword

def eatWord (word : String) : Parser Bool := eat fun t => t.isWord word

def keyword (keyword : String) : Parser Unit :=
  require (fun t => t.isCommand keyword) (quoted keyword)

def word (word : String) : Parser Unit := require (fun t => t.isWord word) (quoted word)

def openParen : Parser Unit := require (isKind .openParen) (quoted "(")

def closeParen : Parser Unit := require (isKind .closeParen) (quoted ")")

def closeBracket : Parser Unit := require (isKind .closeBracket) (quoted "]")

def name : Parser String := expect (fun t => if isName t then some t.text else none) "identifier"

def commaList {α : Type} (item : Parser α) : Parser (List α) := do
  let first ← item
  gather (after (eatKind .comma) item) (fun items a => items ++ [a]) [first]

/-- Names between parentheses. -/
def nameList : Parser (List String) := do
  openParen
  let names ← commaList name
  closeParen
  return names

/-- The names of a column list, if one comes next. -/
def columnNames : Parser (List String) := do
  if ← checkKind .openParen then nameList else return []

/-- A query starts `n` places ahead. -/
def startsQuery (n : Nat) : Parser Bool :=
  look n fun t => t.isCommand "select" || t.isCommand "with" || t.isCommand "values"

def values (calls : Calls) : Parser (List Expr) := commaList (calls.expr 0)

/-- Values up to a closing token, which may come at once. -/
def valuesBefore (close : Kind) (calls : Calls) : Parser (List Expr) := do
  if ← checkKind close then return [] else values calls

/-- One value stands for itself, several for a list. -/
def argumentValues (calls : Calls) : Parser Expr := do
  match ← values calls with
  | [value] => return value
  | values => return .list values

def parenthesizedQuery (calls : Calls) : Parser Expr := do
  openParen
  enter
  let query ← calls.query
  closeParen
  calls.leave
  return .inlineQuery query

/-- A query, a tuple or an expression in parentheses. -/
def parenthesized (calls : Calls) : Parser Expr := do
  if ← startsQuery 1 then parenthesizedQuery calls
  else
    advance
    enter
    let values ← values calls
    closeParen
    calls.leave
    match values with
    | [value] => return .paren value
    | values => return .tuple values

/-- The right side of `in`: a list in parentheses is a tuple whatever its length. -/
def membership (calls : Calls) (power : Nat) : Parser Expr := do
  if !(← checkKind .openParen) || (← startsQuery 1) then calls.expr power
  else
    advance
    enter
    let values ← valuesBefore .closeParen calls
    closeParen
    calls.leave
    return .tuple values

/-- `with time zone` or `without time zone`, where the words are all there. -/
def timeZone : Parser String := do
  let time ← look 1 fun t => t.isWord "time"
  let zone ← look 2 fun t => t.isWord "zone"
  if time && zone then
    if ← eatKeyword "with" then
      advance
      advance
      return " with time zone"
    else if ← eatWord "without" then
      advance
      advance
      return " without time zone"
    else return ""
  else return ""

/-- Further words of a type name. -/
def typeSuffix (name : String) : Parser String := do
  if name == "double" then
    if ← eatWord "precision" then return " precision" else return ""
  else if name == "character" || name == "char" || name == "bit" then
    if ← eatWord "varying" then return " varying" else return ""
  else if name == "timestamp" || name == "time" then timeZone
  else return ""

def typeRef (calls : Calls) : Parser TypeRef := do
  let name ← expect (fun t => if isName t then some (Text.lower t.text) else none) "type name"
  let suffix ← typeSuffix name
  let argument ← after (eatKind .openParen) do
    let values ← values calls
    closeParen
    return .list values
  return ⟨name ++ suffix, argument⟩

/-- Reads what stands to the right of an operator, whose power there is given. -/
def operatorSuffix (calls : Calls) (operator : String) (power : Nat) : Parser Suffix := do
  if operator == "::" then return .cast (← typeRef calls)
  else if operator == "between" || operator == "not between" then
    let lower ← calls.expr power
    keyword "and"
    let upper ← calls.expr power
    return .between (operator == "not between") lower upper
  else if operator == "in" || operator == "not in" then
    return .binary operator (← membership calls power)
  else return .binary operator (← calls.expr power)

def suffix (calls : Calls) (floor : Nat) : Parser (Option Suffix) := do
  match ← accept (Grammar.operatorFrom floor) with
  | none => return none
  | some (operator, power) => return some (← operatorSuffix calls operator power)

def direction : Parser SortDirection := do
  if ← eatKeyword "desc" then return .desc
  else
    let _ ← eatKeyword "asc"
    return .asc

def nullsPosition : Parser (Option NullsPosition) := do
  if ← eatKeyword "nulls first" then return some .first
  else if ← eatKeyword "nulls last" then return some .last
  else return none

def orderItem (calls : Calls) : Parser OrderItem := do
  let value ← calls.expr 0
  let direction ← direction
  let nulls ← nullsPosition
  return ⟨value, direction, nulls⟩

def orderBy (calls : Calls) : Parser (Option (List OrderItem)) :=
  after (eatKeyword "order by") (commaList (orderItem calls))

def bound (calls : Calls) : Parser Bound := do
  if ← eatWord "unbounded" then
    if ← eatWord "preceding" then return .unboundedPreceding
    word "following"
    return .unboundedFollowing
  else if ← eatWord "current" then
    word "row"
    return .currentRow
  else
    let offset ← calls.expr 0
    if ← eatWord "preceding" then return .preceding offset
    word "following"
    return .following offset

def frame (calls : Calls) : Parser (Option Frame) := do
  match ← accept Grammar.frameUnit? with
  | none => return none
  | some unit =>
    if ← eatKeyword "between" then
      let start ← bound calls
      keyword "and"
      let stop ← bound calls
      return some ⟨unit, start, some stop⟩
    else return some ⟨unit, ← bound calls, none⟩

def windowSpec (calls : Calls) : Parser WindowSpec := do
  let partition ← after (eatKeyword "partition by") (values calls)
  let order ← orderBy calls
  let frame ← frame calls
  return ⟨partition, order, frame⟩

/-- What follows `over`. -/
def windowRef (calls : Calls) : Parser Over := do
  if ← checkKind .identifier then return .named (← name)
  else
    require (isKind .openParen) ("window name or " ++ quoted "(")
    enter
    let spec ← windowSpec calls
    closeParen
    calls.leave
    return .window spec

/-- The field of `extract(field from source)`. -/
def extractField (name : String) : Parser (Option String) := do
  let follows ← look 1 fun t => t.isCommand "from"
  if Text.lower name == "extract" && follows then
    let field ← accept fun t =>
      if isKind .identifier t then some (Text.lower t.text) else none
    if field.isSome then advance
    return field
  else return none

/-- The argument of a call, before its closing parenthesis. -/
def argument (name : String) (calls : Calls) : Parser (Option Expr) := do
  if ← checkKind .closeParen then return none
  else if ← eat fun t => isKind .identifier t && t.text == wildcardName then
    return some (.column .wildcard)
  else if ← eatKeyword "distinct" then
    return some (.unary "distinct" (← argumentValues calls))
  else if ← startsQuery 0 then return some (.inlineQuery (← calls.query))
  else
    match ← extractField name with
    | some field => return some (.binary (.raw field) "from" (← calls.expr 0))
    | none => return some (← argumentValues calls)

/-- A call after its name. -/
def functionCall (calls : Calls) (namespaces : List String) (name : String) :
    Parser FunctionCall := do
  openParen
  enter
  let argument ← argument name calls
  closeParen
  calls.leave
  let window ← after (eatKeyword "over") (windowRef calls)
  return ⟨namespaces, name, argument, window⟩

/-- Names joined by points, so many at most. The wildcard ends its path. -/
def pathUpTo : Nat → Parser (List String)
  | 0 => unexpected "identifier"
  | n + 1 => do
    let name ← expect (fun t => if isKind .identifier t then some t.text else none) "identifier"
    if name == wildcardName then return [name]
    else if ← eatKind .dot then return name :: (← pathUpTo n)
    else return [name]

/-- Names joined by points, each of which takes one of the lexemes that are left. -/
def path : Parser (List String) := fun s => pathUpTo s.remaining s

/-- The string after a type name, where one may stand. -/
def typedString (allowed : Bool) : Parser (Option String) :=
  if allowed then
    accept fun t => if isKind .literal t && isQuoted t.text then some t.text else none
  else return none

/-- A column, a call, or a string after a type name. -/
def named (calls : Calls) : Parser Expr := do
  let names ← path
  let namespaces := names.dropLast
  let name := names.getLastD ""
  let isWildcard := name == wildcardName
  let isCall ← checkKind .openParen
  if !isWildcard && isCall then return .function (← functionCall calls namespaces name)
  else
    match ← typedString (namespaces.isEmpty && !isWildcard) with
    | some text => return .specifiedString (Text.lower name) (.ofText text)
    | none => return .column ⟨namespaces, name⟩

def branch (calls : Calls) : Parser Branch := do
  let key ← calls.expr 0
  keyword "then"
  let value ← calls.expr 0
  return ⟨key, value⟩

def caseSubject (calls : Calls) : Parser (Option Expr) := do
  if ← check fun t => t.isCommand "when" then return none else return some (← calls.expr 0)

def branches (calls : Calls) : Parser (List Branch) := do
  let branches ← gather (after (eatKeyword "when") (branch calls)) (fun items a => items ++ [a]) []
  if branches.isEmpty then unexpected (quoted "when") else return branches

def caseExpr (calls : Calls) : Parser Expr := do
  advance
  enter
  let subject ← caseSubject calls
  let branches ← branches calls
  let otherwise ← after (eatKeyword "else") (calls.expr 0)
  keyword "end"
  calls.leave
  return .case subject ⟨branches, otherwise⟩

def castExpr (calls : Calls) : Parser Expr := do
  advance
  openParen
  enter
  let input ← calls.expr 0
  keyword "as"
  let type ← typeRef calls
  closeParen
  calls.leave
  return .cast input type

def arrayExpr (calls : Calls) : Parser Expr := do
  advance
  if ← eatKind .openBracket then
    enter
    let values ← valuesBefore .closeBracket calls
    closeBracket
    calls.leave
    return .array (.list values)
  else if (← checkKind .openParen) && (← startsQuery 1) then
    return .array (← parenthesizedQuery calls)
  else unexpected (quoted "[" ++ " or " ++ quoted "(")

/-- An operand that starts with a keyword. -/
def keywordOperand (calls : Calls) (keyword : String) : Parser Expr := do
  if keyword == "null" then
    advance
    return .literal .null
  else if keyword == "true" || keyword == "false" then
    advance
    return .literal (.boolean (keyword == "true"))
  else if keyword == "case" then caseExpr calls
  else if keyword == "cast" then castExpr calls
  else if keyword == "array" then arrayExpr calls
  else if keyword == "exists" then
    advance
    return .unary "exists" (← parenthesizedQuery calls)
  else unexpected "expression"

/-- An operand that starts with the token and no operator. -/
def primary (calls : Calls) (t : Token) : Parser Expr := do
  match t.kind with
  | .literal =>
    advance
    return .literal (.ofText t.text)
  | .escapedString =>
    advance
    return .ofSpecified t.text
  | .parameter =>
    advance
    return .parameter t.text
  | .openParen => parenthesized calls
  | .identifier => named calls
  | .command => keywordOperand calls t.text
  | _ => unexpected "expression"

/-- An operand with the operators in front of it. -/
def operand (calls : Calls) : Parser Expr := do
  match ← current with
  | none => unexpected "expression"
  | some l =>
    match Power.unary? l with
    | some power =>
      advance
      return .unary l.text (← calls.expr power)
    | none => primary calls l

/-- An expression whose operators have at least the power of the floor. -/
def expression (calls : Calls) (floor : Nat) : Parser Expr := do
  let first ← operand calls
  gather (suffix calls floor) Suffix.apply first

end Parser

end SqlQuery
