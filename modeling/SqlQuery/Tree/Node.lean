import SqlQuery.Tree

/-!
Nodes: every part of a query that stands by itself, its kind and its parts in order.
-/

namespace SqlQuery

inductive Node where
  | expr (e : Expr)
  | query (q : Query)
  | identifier (name : String)
  | switch (s : Switch)
  | branch (b : Branch)
  | select (c : SelectClause)
  | selectItem (i : SelectItem)
  | distinct (d : Distinct)
  | fromClause (f : From)
  | join (j : Join)
  | source (s : Source)
  | table (t : TableRef)
  | sourceAlias (a : SourceAlias)
  | filter (condition : Expr)
  | groupBy (items : List Expr)
  | having (condition : Expr)
  | orderBy (items : List OrderItem)
  | orderItem (i : OrderItem)
  | partitionBy (values : List Expr)
  | overClause (o : Over)
  | windowSpec (w : WindowSpec)
  | frame (f : Frame)
  | windowDef (w : WindowDef)
  | windows (ws : List WindowDef)
  | commonTables (w : With)
  | commonTable (t : CommonTable)
  | limit (l : Limit)
  | fetch (f : Fetch)
  | lock (mode : LockMode)

def DataSource.node : DataSource → Node
  | .table ref => .table ref
  | .subQuery query => .query query
  | .function call => .expr (.function call)

def Expr.kind : Expr → String
  | .literal _ => "literal"
  | .raw _ => "raw"
  | .column _ => "column"
  | .function _ => "function"
  | .unary _ _ => "unary"
  | .binary _ _ _ => "binary"
  | .parameter _ => "parameter"
  | .array _ => "array"
  | .tuple _ => "tuple"
  | .list _ => "value_list"
  | .case _ _ => "case"
  | .cast _ _ => "cast"
  | .paren _ => "paren"
  | .between _ _ _ _ => "between"
  | .type _ => "type"
  | .specifiedString _ _ => "string_specifier"
  | .inlineQuery _ => "inline_query"

def Query.kind : Query → String
  | .simple _ => "simple_query"
  | .binary _ _ _ => "binary_query"
  | .values _ => "values_query"

/-- A direct part of a node under its role. -/
abbrev Child := String × Node

/-- The children that share a role. -/
def Child.each {α : Type} (role : String) (f : α → Node) (as : List α) : List Child :=
  as.map fun a => (role, f a)

/-- The child of a role that may be absent. -/
def Child.maybe {α : Type} (role : String) (f : α → Node) (a : Option α) : List Child :=
  Child.each role f a.toList

open Child

def FunctionCall.children (call : FunctionCall) : List Child :=
  each "namespace" .identifier call.namespaces ++ [("name", .expr (.raw call.name))] ++
    maybe "argument" .expr call.argument ++ maybe "over" .overClause call.window

def TypeRef.children (ref : TypeRef) : List Child :=
  ("name", .expr (.raw ref.name)) :: maybe "argument" .expr ref.argument

def Expr.children : Expr → List Child
  | .literal _ | .raw _ | .parameter _ => []
  | .column ref =>
    each "namespace" .identifier ref.namespaces ++ [("column", .identifier ref.column)]
  | .function call => call.children
  | .unary operator operand => [("operator", .expr (.raw operator)), ("expression", .expr operand)]
  | .binary left operator right =>
    [("left", .expr left), ("operator", .expr (.raw operator)), ("right", .expr right)]
  | .array content => [("expression", .expr content)]
  | .tuple values | .list values => each "value" .expr values
  | .case subject switch => maybe "condition" .expr subject ++ [("switch", .switch switch)]
  | .cast input ref => [("input", .expr input), ("type", .expr (.type ref))]
  | .paren inner => [("expression", .expr inner)]
  | .between operand lower upper _ =>
    [("expression", .expr operand), ("lower", .expr lower), ("upper", .expr upper)]
  | .type ref => ref.children
  | .specifiedString specifier value =>
    [("specifier", .expr (.raw specifier)), ("value", .expr (.literal value))]
  | .inlineQuery query => [("query", .query query)]

def Select.children (s : Select) : List Child :=
  maybe "with" .commonTables s.commonTables ++ [("select", .select s.clause)] ++
    maybe "from" .fromClause s.source ++ maybe "where" .filter s.condition ++
    maybe "group_by" .groupBy s.groupBy ++ maybe "having" .having s.having ++
    maybe "window" .windows s.windows ++ maybe "order_by" .orderBy s.orderBy ++
    maybe "limit" .limit s.limit ++ maybe "fetch" .fetch s.fetch ++ maybe "for" .lock s.lock

def Query.children : Query → List Child
  | .simple select => select.children
  | .binary left operator right =>
    [("left", .query left), ("operator", .expr (.raw operator)), ("right", .query right)]
  | .values rows => each "tuple" (fun row => .expr (.tuple row)) rows

def Distinct.children : Distinct → List Child
  | .rows => []
  | .on values => [("on", .expr (.list values))]

def JoinCondition.children : JoinCondition → List Child
  | .on condition => [("on", .expr condition)]
  | .columns names => each "using" .identifier names

def Over.children : Over → List Child
  | .named name => [("name", .identifier name)]
  | .window spec => [("window", .windowSpec spec)]

def Bound.offset? : Bound → Option Expr
  | .preceding offset | .following offset => some offset
  | _ => none

namespace Node

def kind : Node → String
  | .expr e => e.kind
  | .query q => q.kind
  | .identifier _ => "identifier"
  | .switch _ => "switch_case"
  | .branch _ => "case_key_value"
  | .select _ => "select"
  | .selectItem _ => "select_item"
  | .distinct _ => "distinct"
  | .fromClause _ => "from"
  | .join _ => "join"
  | .source _ => "source"
  | .table _ => "table"
  | .sourceAlias _ => "source_alias"
  | .filter _ => "where"
  | .groupBy _ => "group_by"
  | .having _ => "having"
  | .orderBy _ => "order_by"
  | .orderItem _ => "order_by_item"
  | .partitionBy _ => "partition_by"
  | .overClause _ => "over"
  | .windowSpec _ => "window_expression"
  | .frame _ => "window_frame_spec"
  | .windowDef _ => "window_frame"
  | .windows _ => "window"
  | .commonTables _ => "with"
  | .commonTable _ => "common_table"
  | .limit _ => "limit"
  | .fetch _ => "fetch"
  | .lock _ => "for"

/-- The direct parts of a node, in the order in which they are written. -/
def children : Node → List Child
  | .expr e => e.children
  | .query q => q.children
  | .identifier _ => []
  | .switch s =>
    each "case" .branch s.branches ++ maybe "else" .expr s.otherwise
  | .branch b => [("key", .expr b.key), ("value", .expr b.value)]
  | .select c => maybe "distinct" .distinct c.distinct ++ each "item" .selectItem c.items
  | .selectItem i => ("value", .expr i.value) :: maybe "alias" .identifier i.aliasName
  | .distinct d => d.children
  | .fromClause f => ("source", .source f.source) :: each "join" .join f.joins
  | .join j =>
    [("type", .expr (.raw j.kind)), ("source", .source j.source)] ++
      j.condition.toList.flatMap JoinCondition.children
  | .source s => ("datasource", s.data.node) :: maybe "alias" .sourceAlias s.sourceAlias
  | .table t =>
    each "namespace" .identifier t.namespaces ++ [("table", .identifier t.table)]
  | .sourceAlias a => ("name", .identifier a.name) :: each "column" .identifier a.columns
  | .filter condition | .having condition => [("condition", .expr condition)]
  | .groupBy items => each "item" .expr items
  | .orderBy items => each "item" .orderItem items
  | .orderItem i => [("value", .expr i.value)]
  | .partitionBy values => each "value" .expr values
  | .overClause o => o.children
  | .windowSpec w =>
    maybe "partition" .partitionBy w.partition ++ maybe "order" .orderBy w.order ++
      maybe "frame" .frame w.frame
  | .frame f =>
    maybe "start" .expr f.start.offset? ++ maybe "end" .expr (f.stop.bind Bound.offset?)
  | .windowDef w => [("name", .identifier w.name), ("expression", .windowSpec w.spec)]
  | .windows ws => each "window" .windowDef ws
  | .commonTables w => each "table" .commonTable w.tables
  | .commonTable t => [("alias", .sourceAlias t.header), ("query", .query t.query)]
  | .limit l => maybe "limit" .expr l.limit ++ maybe "offset" .expr l.offset
  | .fetch f => maybe "count" .expr f.count
  | .lock _ => []

end Node

end SqlQuery
