import SqlQuery.Grammar.Clause
import SqlQuery.Parser.Expression

/-!
The parser of the clauses of a select.
-/

namespace SqlQuery.Parser

def distinct (calls : Calls) : Parser (Option Distinct) := do
  if ← eatKeyword "distinct on" then
    openParen
    let values ← values calls
    closeParen
    return some (.on values)
  else if ← eatKeyword "distinct" then return some .rows
  else
    let _ ← eatKeyword "all"
    return none

def selectItem (calls : Calls) : Parser SelectItem := do
  let value ← calls.expr 0
  let explicit ← eatKeyword "as"
  let named ← check isName
  if explicit || named then return ⟨value, some (← name)⟩ else return ⟨value, none⟩

def selectClause (calls : Calls) : Parser SelectClause := do
  keyword "select"
  let distinct ← distinct calls
  let items ← commaList (selectItem calls)
  return ⟨distinct, items⟩

/-- Names joined by points, none of them the wildcard. -/
def qualifiedName : Parser (List String) := do
  let first ← name
  gather (after (eatKind .dot) name) (fun names a => names ++ [a]) [first]

def dataSource (calls : Calls) : Parser DataSource := do
  if ← eatKind .openParen then
    enter
    let query ← calls.query
    closeParen
    calls.leave
    return .subQuery query
  else
    let names ← qualifiedName
    let namespaces := names.dropLast
    let name := names.getLastD ""
    if ← checkKind .openParen then return .function (← functionCall calls namespaces name)
    else return .table ⟨namespaces, name⟩

/-- A name after a table is its alias only if more of the query follows. -/
def sourceAlias (isTable : Bool) : Parser (Option SourceAlias) := do
  let explicit ← eatKeyword "as"
  let named ← check isName
  let continues ← look 1 fun t => !t.isOperator ";"
  if explicit || (named && (!isTable || continues)) then
    let name ← name
    let columns ← columnNames
    return some ⟨name, columns⟩
  else return none

def source (calls : Calls) : Parser Source := do
  let data ← dataSource calls
  let shown ← sourceAlias (Grammar.DataSource.isTable data)
  return ⟨data, shown⟩

def joinCondition (calls : Calls) : Parser (Option JoinCondition) := do
  if ← eatKeyword "on" then return some (.on (← calls.expr 0))
  else if ← eatKeyword "using" then return some (.columns (← nameList))
  else return none

def join (calls : Calls) : Parser (Option Join) := do
  match ← accept Grammar.joinKind? with
  | none => return none
  | some (kind, comma) =>
    let lateral ← eatKeyword "lateral"
    let source ← source calls
    if comma then return some ⟨kind, lateral, source, none⟩
    else return some ⟨kind, lateral, source, ← joinCondition calls⟩

def fromClause (calls : Calls) : Parser From := do
  let source ← source calls
  let joins ← gather (join calls) (fun joins a => joins ++ [a]) []
  return ⟨source, joins⟩

/-- A window definition, which has to say in its parentheses how rows are split or ordered. -/
def windowDef (calls : Calls) : Parser WindowDef := do
  let name ← name
  keyword "as"
  openParen
  enter
  let spec ← windowSpec calls
  if spec.hasBounds then
    closeParen
    calls.leave
    return ⟨name, spec⟩
  else unexpected (quoted "partition by" ++ " or " ++ quoted "order by")

def eatRows : Parser Bool := do
  if ← eatWord "rows" then return true else eatWord "row"

def offset (calls : Calls) : Parser (Option Expr) :=
  after (eatKeyword "offset") do
    let value ← calls.expr 0
    let _ ← eatRows
    return value

/-- A limit and an offset, in either order. -/
def limit (calls : Calls) : Parser (Option Limit) := do
  if ← eatKeyword "limit" then
    let limit ← calls.expr 0
    let offset ← offset calls
    return some ⟨some limit, offset⟩
  else
    match ← offset calls with
    | none => return none
    | some offset =>
      let limit ← after (eatKeyword "limit") (calls.expr 0)
      return some ⟨limit, some offset⟩

def fetchCount (calls : Calls) : Parser (Option Expr) := do
  if ← check fun t => t.isWord "row" || t.isWord "rows" then return none
  else return some (← calls.expr 0)

def requireRows : Parser Unit := do
  if ← eatRows then return () else unexpected (quoted "rows")

def fetchUnit (percent : Bool) : Parser FetchUnit := do
  if ← eatWord "only" then return if percent then .percent else .rowsOnly
  else if percent then unexpected (quoted "only")
  else if ← eatKeyword "with" then
    word "ties"
    return .withTies
  else unexpected (quoted "only")

def fetch (calls : Calls) : Parser Fetch := do
  let position ← expect Grammar.fetchPosition? (quoted "first" ++ " or " ++ quoted "next")
  let count ← fetchCount calls
  let percent ← eatWord "percent"
  requireRows
  let unit ← fetchUnit percent
  return ⟨position, count, unit⟩

def lock : Parser LockMode := do
  if ← eatWord "update" then return .update
  else if ← eatWord "share" then return .share
  else if ← eatWord "no" then
    word "key"
    word "update"
    return .noKeyUpdate
  else if ← eatWord "key" then
    word "share"
    return .keyShare
  else unexpected "lock mode"

end SqlQuery.Parser
