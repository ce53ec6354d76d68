import SqlQuery.Grammar.Expression

/-!
Rules for the clauses of a select.
-/

namespace SqlQuery.Grammar

open Rule

def distinct (level : Level) : Rule (Option Distinct) := do
  if ← eatKeyword "distinct on" then
    openParen
    let values ← values level
    closeParen
    return some (.on values)
  else if ← eatKeyword "distinct" then return some .rows
  else
    let _ ← eatKeyword "all"
    return none

def selectItem (level : Level) : Rule SelectItem := do
  let value ← level.expr 0
  let explicit ← eatKeyword "as"
  let named ← look 0 isName
  if explicit || named then return ⟨value, some (← name)⟩ else return ⟨value, none⟩

def selectClause (level : Level) : Rule SelectClause := do
  keyword "select"
  let distinct ← distinct level
  let items ← commaList (selectItem level)
  return ⟨distinct, items⟩

/-- Names joined by points, none of them the wildcard. -/
def qualifiedName : Rule (List String) :=
  return (← name) :: (← many (after (eatKind .dot) name))

def dataSource (scope : Scope) : Rule DataSource := do
  if ← eatKind .openParen then .subQuery <$> scope.enter nestedQuery
  else
    let names ← qualifiedName
    let namespaces := names.dropLast
    let name := names.getLastD ""
    if ← look 0 (isKind .openParen) then .function <$> functionCall scope namespaces name
    else return .table ⟨namespaces, name⟩

/-- A name after a table is its alias only if more of the query follows. -/
def sourceAlias (isTable : Bool) : Rule (Option SourceAlias) := do
  let explicit ← eatKeyword "as"
  let named ← look 0 isName
  let continues ← look 1 fun t => !t.isOperator ";"
  if explicit || (named && (!isTable || continues)) then
    let name ← name
    let columns ← columnNames
    return some ⟨name, columns⟩
  else return none

def DataSource.isTable : DataSource → Bool
  | .table _ => true
  | _ => false

def source (scope : Scope) : Rule Source := do
  let data ← dataSource scope
  return ⟨data, ← sourceAlias (DataSource.isTable data)⟩

/-- The kind of join that a token starts. A comma joins without a condition. -/
def joinKind? (t : Token) : Option (String × Bool) :=
  if isKind .comma t then some ("cross join", true)
  else if isKind .command t && "join".toList.isSuffixOf t.text.toList then some (t.text, false)
  else none

def joinCondition (level : Level) : Rule (Option JoinCondition) := do
  if ← eatKeyword "on" then return some (.on (← level.expr 0))
  else if ← eatKeyword "using" then return some (.columns (← nameList))
  else return none

def join (scope : Scope) : Rule (Option Join) := do
  match ← accept joinKind? with
  | none => return none
  | some (kind, comma) =>
    let lateral ← eatKeyword "lateral"
    let source ← source scope
    if comma then return some ⟨kind, lateral, source, none⟩
    else return some ⟨kind, lateral, source, ← joinCondition scope.here⟩

def fromClause (scope : Scope) : Rule From :=
  return ⟨← source scope, ← many (join scope)⟩

/-- A window definition in its parentheses, which has to say how rows are split or ordered. -/
def boundedSpec (level : Level) : Rule WindowSpec := do
  let spec ← windowSpec level
  if spec.hasBounds then return spec
  else fail (quoted "partition by" ++ " or " ++ quoted "order by")

def windowDef (scope : Scope) : Rule WindowDef := do
  let name ← name
  keyword "as"
  openParen
  scope.enter fun level => do
    let spec ← boundedSpec level
    closeParen
    return ⟨name, spec⟩

def eatRows : Rule Bool := do
  if ← eatWord "rows" then return true else eatWord "row"

def offset (level : Level) : Rule (Option Expr) :=
  after (eatKeyword "offset") do
    let value ← level.expr 0
    let _ ← eatRows
    return value

/-- A limit and an offset, in either order. -/
def limit (level : Level) : Rule (Option Limit) := do
  if ← eatKeyword "limit" then
    let limit ← level.expr 0
    let offset ← offset level
    return some ⟨some limit, offset⟩
  else
    match ← offset level with
    | none => return none
    | some offset =>
      let limit ← after (eatKeyword "limit") (level.expr 0)
      return some ⟨limit, some offset⟩

def fetchPosition? (t : Token) : Option FetchPosition :=
  if t.isWord "first" then some .first
  else if t.isWord "next" then some .next
  else none

def fetchCount (level : Level) : Rule (Option Expr) := do
  if ← look 0 fun t => t.isWord "row" || t.isWord "rows" then return none
  else some <$> level.expr 0

def requireRows : Rule Unit := do
  if ← eatRows then return () else fail (quoted "rows")

def fetchUnit (percent : Bool) : Rule FetchUnit := do
  if ← eatWord "only" then return if percent then .percent else .rowsOnly
  else if percent then fail (quoted "only")
  else if ← eatKeyword "with" then
    word "ties"
    return .withTies
  else fail (quoted "only")

def fetch (level : Level) : Rule Fetch := do
  let position ← expect fetchPosition? (quoted "first" ++ " or " ++ quoted "next")
  let count ← fetchCount level
  let percent ← eatWord "percent"
  requireRows
  return ⟨position, count, ← fetchUnit percent⟩

def lock : Rule LockMode := do
  if ← eatWord "update" then return .update
  else if ← eatWord "share" then return .share
  else if ← eatWord "no" then
    word "key"
    word "update"
    return .noKeyUpdate
  else if ← eatWord "key" then
    word "share"
    return .keyShare
  else fail "lock mode"

end SqlQuery.Grammar
