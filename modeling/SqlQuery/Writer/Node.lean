import SqlQuery.Tree.Node
import SqlQuery.Writer.Mark

/-!
Writing nodes on one line, with keywords in lowercase. What is nested in a node is written by a
given writer, one level deeper.
-/

namespace SqlQuery

section

variable (d : Dialect) (write : Node → Draft)

def writeExprs (values : List Expr) : Draft :=
  return commaSeparated (← values.mapM fun e => write (.expr e))

/-- What is present, without what is written as nothing, in order. -/
def writeClauses (nodes : List (Option Node)) : Draft := do
  let parts ← (nodes.filterMap id).mapM write
  return spaced (parts.filter fun part => !(Mark.spellAll d part).isEmpty)

/-- A query in the place of a value needs no parentheses of its own where there are some already. -/
def writeContent : Expr → Draft
  | .inlineQuery query => write (.query query)
  | content => write (.expr content)

def FunctionCall.writeWith (call : FunctionCall) : Draft := do
  let name := qualify call.namespaces (.call (← rawText call.name))
  let argument ←
    match call.argument with
    | none => pure []
    | some argument => writeContent write argument
  match call.window with
  | none => return name ++ inParens argument
  | some window => return name ++ inParens argument ++ .blank :: (← write (.overClause window))

/-- A word and a sign in front of another sign stand apart from the operand. -/
def writeUnary (operator : String) (operand : Expr) : Draft := do
  let operator ← rawText operator
  let operand ← write (.expr operand)
  let isWord := operator.toList.head?.any Char.isAlpha
  let signed := (Mark.spellAll d operand).head?.any fun c => c == '-' || c == '+'
  if isWord || signed then return .plain operator :: .blank :: operand
  else return .plain operator :: operand

def writeCase (subject : Option Expr) (switch : Switch) : Draft := do
  let switch ← write (.switch switch)
  match subject with
  | none => return spaced [[.plain "case"], switch, [.plain "end"]]
  | some subject =>
    return spaced [[.plain "case"], ← write (.expr subject), switch, [.plain "end"]]

def writeCast (input : Expr) (ref : TypeRef) : Draft := do
  let written ← write (.expr input)
  let type ← write (.expr (.type ref))
  if input.isPrimary then return written ++ .plain "::" :: type
  else return .plain "cast" :: inParens (spaced [written, [.plain "as"], type])

def TypeRef.writeWith (ref : TypeRef) : Draft := do
  let name ← writeRaw ref.name
  match ref.argument with
  | none => return name
  | some argument => return name ++ inParens (← write (.expr argument))

def writeSubQuery (query : Query) : Draft := return inParens (← write (.query query))

def Expr.writeWith : Expr → Draft
  | .literal value => .ok [.literal value]
  | .raw text => writeRaw text
  | .column ref => .ok ref.marks
  | .function call => call.writeWith write
  | .unary operator operand => writeUnary d write operator operand
  | .binary left operator right => do
    let left ← write (.expr left)
    let operator ← writeRaw operator
    let right ← write (.expr right)
    return spaced [left, operator, right]
  | .parameter name => .ok [.parameter name]
  | .array content => do
    let written ← writeContent write content
    match content with
    | .inlineQuery _ => return .plain "array" :: inParens written
    | _ => return .plain "array" :: .plain "[" :: written ++ [.plain "]"]
  | .tuple values => return inParens (← writeExprs write values)
  | .list values => writeExprs write values
  | .case subject switch => writeCase write subject switch
  | .cast input ref => writeCast write input ref
  | .paren inner => return inParens (← write (.expr inner))
  | .between operand lower upper negated => do
    let operand ← write (.expr operand)
    let lower ← write (.expr lower)
    let upper ← write (.expr upper)
    let between := if negated then "not between" else "between"
    return spaced [operand, [.plain between], lower, [.plain "and"], upper]
  | .type ref => ref.writeWith write
  | .specifiedString specifier value => writeSpecified specifier value
  | .inlineQuery query => writeSubQuery write query

def Query.writeWith : Query → Draft
  | .simple s =>
    writeClauses d write
      [s.commonTables.map .commonTables, some (.select s.clause), s.source.map .fromClause,
       s.condition.map .filter, s.groupBy.map .groupBy, s.having.map .having,
       s.windows.map .windows, s.orderBy.map .orderBy, s.limit.map .limit, s.fetch.map .fetch,
       s.lock.map .lock]
  | .binary left operator right => do
    let left ← write (.query left)
    let operator ← writeRaw operator
    let right ← write (.query right)
    return spaced [left, operator, right]
  | .values rows => do
    let rows ← rows.mapM fun row => write (.expr (.tuple row))
    return spaced [[.plain "values"], commaSeparated rows]

def Switch.writeWith (s : Switch) : Draft := do
  let branches ← s.branches.mapM fun b => write (.branch b)
  match s.otherwise with
  | none => return spaced branches
  | some otherwise =>
    return spaced [spaced branches, [.plain "else"], ← write (.expr otherwise)]

def Branch.writeWith (b : Branch) : Draft := do
  let key ← write (.expr b.key)
  let value ← write (.expr b.value)
  return spaced [[.plain "when"], key, [.plain "then"], value]

def SelectClause.writeWith (c : SelectClause) : Draft := do
  let items := commaSeparated (← c.items.mapM fun i => write (.selectItem i))
  match c.distinct with
  | none => return spaced [[.plain "select"], items]
  | some distinct => return spaced [[.plain "select"], ← write (.distinct distinct), items]

def SelectItem.writeWith (i : SelectItem) : Draft := do
  let value ← write (.expr i.value)
  match i.effectiveAlias with
  | none => return value
  | some name => return spaced [value, [.plain "as"], [.name name]]

def Distinct.writeWith : Distinct → Draft
  | .rows => .ok [.plain "distinct"]
  | .on values => return spaced [[.plain "distinct on"], inParens (← writeExprs write values)]

def From.writeWith (f : From) : Draft := do
  let source ← write (.source f.source)
  let joins ← f.joins.mapM fun j => write (.join j)
  return spaced ([.plain "from"] :: source :: joins)

def JoinCondition.writeWith : JoinCondition → Draft
  | .on condition => return spaced [[.plain "on"], ← write (.expr condition)]
  | .columns names => return spaced [[.plain "using"], inParens (writeNames names)]

def Join.writeWith (j : Join) : Draft := do
  let kind ← writeRaw j.kind
  let source ← write (.source j.source)
  let condition ← j.condition.toList.mapM fun c => c.writeWith write
  let lateral := if j.lateral then [[.plain "lateral"]] else []
  return spaced ([kind] ++ lateral ++ [source] ++ condition)

def DataSource.writeWith : DataSource → Draft
  | .table ref => .ok ref.marks
  | .subQuery query => writeSubQuery write query
  | .function call => call.writeWith write

def Source.writeWith (s : Source) : Draft := do
  let data ← s.data.writeWith write
  match s.effectiveAlias with
  | none => return data
  | some a => return spaced [data, [.plain "as"], a.marks]

def SortDirection.marks : SortDirection → List (List Mark)
  | .asc => []
  | .desc => [[.plain SortDirection.desc.text]]

def NullsPosition.marks (nulls : Option NullsPosition) : List (List Mark) :=
  nulls.toList.map fun nulls => [.plain nulls.text]

def OrderItem.writeWith (i : OrderItem) : Draft := do
  let value ← write (.expr i.value)
  return spaced ([value] ++ i.direction.marks ++ NullsPosition.marks i.nulls)

def Over.writeWith : Over → Draft
  | .named name => .ok (spaced [[.plain "over"], [.name name]])
  | .window spec => return .plain "over" :: inParens (← write (.windowSpec spec))

def Bound.writeWith : Bound → Draft
  | .unboundedPreceding => .ok (writeWords ["unbounded", "preceding"])
  | .unboundedFollowing => .ok (writeWords ["unbounded", "following"])
  | .currentRow => .ok (writeWords ["current", "row"])
  | .preceding offset => return spaced [← write (.expr offset), [.plain "preceding"]]
  | .following offset => return spaced [← write (.expr offset), [.plain "following"]]

def Frame.writeWith (f : Frame) : Draft := do
  let start ← f.start.writeWith write
  match f.stop with
  | none => return spaced [[.plain f.unit.text], start]
  | some stop =>
    return spaced [[.plain f.unit.text], [.plain "between"], start, [.plain "and"],
      ← stop.writeWith write]

def WindowDef.writeWith (w : WindowDef) : Draft := do
  if !w.spec.hasBounds then throw (.incompleteWindow w.name)
  return spaced [[.name w.name], [.plain "as"], inParens (← write (.windowSpec w.spec))]

def With.writeWith (w : With) : Draft := do
  let tables := commaSeparated (← w.tables.mapM fun t => write (.commonTable t))
  let recursive := if w.recursive then [[.plain "recursive"]] else []
  return spaced ([[.plain "with"]] ++ recursive ++ [tables])

def CommonTable.writeWith (t : CommonTable) : Draft := do
  let query ← write (.query t.query)
  let materialized :=
    match t.materialized with
    | none => []
    | some true => [[.plain "materialized"]]
    | some false => [[.plain "not materialized"]]
  return spaced ([t.header.marks, [.plain "as"]] ++ materialized ++ [inParens query])

/-- A keyword with a value after it, if there is a value. -/
def writeKeyworded (keyword : String) (value : Option Expr) :
    Except WriteError (List (List Mark)) :=
  value.toList.mapM fun e => return spaced [[.plain keyword], ← write (.expr e)]

def Limit.writeWith (l : Limit) : Draft := do
  let limit ← writeKeyworded write "limit" l.limit
  let offset ← writeKeyworded write "offset" l.offset
  return spaced (limit ++ offset)

def Fetch.writeWith (f : Fetch) : Draft := do
  let count ← f.count.toList.mapM fun e => write (.expr e)
  return spaced ([[.plain "fetch"], [.plain f.position.text]] ++ count ++
    [writeWords f.unit.words])

/-- Writes a node whose parts are written by the given writer. -/
def Node.writeWith : Node → Draft
  | .expr e => e.writeWith d write
  | .query q => q.writeWith d write
  | .identifier name => .ok [.name name]
  | .switch s => s.writeWith write
  | .branch b => b.writeWith write
  | .select c => c.writeWith write
  | .selectItem i => i.writeWith write
  | .distinct x => x.writeWith write
  | .fromClause f => f.writeWith write
  | .join j => j.writeWith write
  | .source s => s.writeWith write
  | .table ref => .ok ref.marks
  | .sourceAlias a => .ok a.marks
  | .filter condition => return spaced [[.plain "where"], ← write (.expr condition)]
  | .groupBy items => return spaced [[.plain "group by"], ← writeExprs write items]
  | .having condition => return spaced [[.plain "having"], ← write (.expr condition)]
  | .orderBy items => do
    let items ← items.mapM fun i => write (.orderItem i)
    return spaced [[.plain "order by"], commaSeparated items]
  | .orderItem i => i.writeWith write
  | .partitionBy values => return spaced [[.plain "partition by"], ← writeExprs write values]
  | .overClause o => o.writeWith write
  | .windowSpec w =>
    writeClauses d write [w.partition.map .partitionBy, w.order.map .orderBy, w.frame.map .frame]
  | .frame f => f.writeWith write
  | .windowDef w => w.writeWith write
  | .windows ws => do
    let ws ← ws.mapM fun w => write (.windowDef w)
    return spaced [[.plain "window"], commaSeparated ws]
  | .commonTables w => w.writeWith write
  | .commonTable t => t.writeWith write
  | .limit l => l.writeWith write
  | .fetch f => f.writeWith write
  | .lock mode => .ok (writeWords ("for" :: mode.words))

end

/-- Writes a node with so many levels of nodes allowed. -/
def Node.writeAt (d : Dialect) (limit : Nat) : Nat → Node → Draft
  | 0, _ => .error (.tooDeep limit)
  | n + 1, node => node.writeWith d (writeAt d limit n)

def Node.defaultLimit : Nat := 512

/-- Writes a node that nests no deeper than the limit. -/
def Node.write (d : Dialect) (limit : Nat) (node : Node) : Written := do
  let marks ← node.writeAt d limit limit
  return String.ofList (Mark.spellAll d marks)

end SqlQuery
