import SqlQuery.Grammar.Query
import SqlQuery.Parser.Clause

/-!
The parser of queries, and what it nests: each expression and each query opens a level of its own,
which is closed whatever comes of it.
-/

namespace SqlQuery

namespace Parser

variable {α : Type}

def row (calls : Calls) : Parser (List Expr) := do
  openParen
  let values ← values calls
  closeParen
  return values

def simpleSelect (calls : Calls) (commonTables : Option With) : Parser Select := do
  let clause ← selectClause calls
  let source ← after (eatKeyword "from") (fromClause calls)
  let condition ← after (eatKeyword "where") (calls.expr 0)
  let groupBy ← after (eatKeyword "group by") (values calls)
  let having ← after (eatKeyword "having") (calls.expr 0)
  let windows ← after (eatKeyword "window") (commaList (windowDef calls))
  let orderBy ← orderBy calls
  let limit ← limit calls
  let fetch ← after (eatKeyword "fetch") (fetch calls)
  let lock ← after (eatKeyword "for") lock
  return ⟨commonTables, clause, source, condition, groupBy, having, windows, orderBy, limit, fetch,
    lock⟩

/-- A list of values, or a select that takes the common tables read before it. -/
def term (calls : Calls) (commonTables : Option With) : Parser Query := do
  if ← eatKeyword "values" then return .values (← commaList (row calls))
  else return .simple (← simpleSelect calls commonTables)

def materialized : Parser (Option Bool) := do
  if ← eatKeyword "materialized" then return some true
  else if ← eatKeyword "not materialized" then return some false
  else return none

def commonTable (calls : Calls) : Parser CommonTable := do
  let name ← name
  let columns ← columnNames
  keyword "as"
  let materialized ← materialized
  openParen
  enter
  let query ← calls.query
  closeParen
  calls.leave
  return ⟨⟨name, columns⟩, materialized, query⟩

/-- The common tables of a query, which a select has to follow. -/
def commonTables (calls : Calls) : Parser (Option With) :=
  after (eatKeyword "with") do
    let recursive ← eatKeyword "recursive"
    let tables ← commaList (commonTable calls)
    if ← check fun t => t.isCommand "select" then return ⟨recursive, tables⟩
    else unexpected (quoted "select")

def setOperation (calls : Calls) : Parser (Option (String × Query)) := do
  let operator ← accept fun t =>
    if isKind .command t && Grammar.setOperators.contains t.text then some t.text else none
  match operator with
  | none => return none
  | some operator => return some (operator, ← term calls none)

/-- A query: set operations group to the left, and the first operand takes the common tables. -/
def query (calls : Calls) : Parser Query := do
  let commonTables ← commonTables calls
  let first ← term calls commonTables
  gather (setOperation calls) (fun left (operator, right) => .binary left operator right) first

/-- Opens a level, and closes it also if the parser fails. -/
def nested (leave : Parser Unit) (p : Parser α) : Parser α := do
  enter
  let result ← attempt p
  leave
  ofResult result

def tooDeep : Parser α := failWith fun s => .tooDeep s.limit s.place

mutual

/-- An expression, with calls nested so deep at most. -/
def exprWithin (leave : Parser Unit) :
    Nat → Nat → Session → Except ParseError Expr × Session
  | 0, _, s => tooDeep s
  | n + 1, floor, s =>
    nested leave (expression ⟨exprWithin leave n, queryWithin leave n, leave⟩ floor) s

/-- A query, with calls nested so deep at most. -/
def queryWithin (leave : Parser Unit) : Nat → Session → Except ParseError Query × Session
  | 0, s => tooDeep s
  | n + 1, s => nested leave (query ⟨exprWithin leave n, queryWithin leave n, leave⟩) s

end

/-- What the parser calls, nested so deep at most. -/
def callsWithin (leave : Parser Unit) (n : Nat) : Calls :=
  ⟨exprWithin leave n, queryWithin leave n, leave⟩

/-- A query with nothing after it but a semicolon. -/
def statement (calls : Calls) : Parser Query := do
  let query ← calls.query
  let _ ← eat fun t => t.isOperator ";"
  match ← current with
  | some l => failWith fun s => .trailing s.index l.position l.text
  | none => return query

end Parser

namespace Session

/-- What the parser calls in a session. Each call opens a level, so that none gets through that is
nested deeper than levels may still be opened, and the one that is refused. -/
def calls (s : Session) : Calls := Parser.callsWithin Parser.leave (s.allowance + 1)

def query (s : Session) : Except ParseError Query × Session := s.calls.query s

def statement (s : Session) : Except ParseError Query × Session := Parser.statement s.calls s

end Session

/-- Reads a text that holds one statement. -/
def Query.parse (text : String) (limit : Nat) : Except ParseError Query :=
  match (scan text).2 with
  | .error error => .error (.scan error)
  | .ok lexemes => (Session.start lexemes limit).statement.1

end SqlQuery
