import SqlQuery.Json
import SqlQuery.Tree

/-!
The JSON form of queries. An alternative with content is an object with its tag as the only field,
one without is its tag; what is absent is null.
-/

namespace SqlQuery

namespace Json

def ofOption {α : Type} (f : α → Json) : Option α → Json
  | none => null
  | some a => f a

def names (ns : List String) : Json := array (ns.map string)

def tagged (tag : String) (content : Json) : Json := object [(tag, content)]

end Json


def Literal.toJson : Literal → Json
  | .number text => .object [("type", .string "number"), ("value", .string text)]
  | .string value => .object [("type", .string "string"), ("value", .string value)]
  | .boolean value => .object [("type", .string "boolean"), ("value", .boolean value)]
  | .null => .object [("type", .string "null")]

def ColumnRef.toJson (ref : ColumnRef) : Json :=
  .object [("namespaces", .names ref.namespaces), ("column", .string ref.column)]

def TableRef.toJson (ref : TableRef) : Json :=
  .object [("namespaces", .names ref.namespaces), ("table", .string ref.table)]

def SourceAlias.toJson (a : SourceAlias) : Json :=
  .object [("name", .string a.name), ("columns", .names a.columns)]

def SortDirection.toJson : SortDirection → Json
  | .asc => .string "asc"
  | .desc => .string "desc"

def NullsPosition.toJson : NullsPosition → Json
  | .first => .string "first"
  | .last => .string "last"

def FrameUnit.toJson : FrameUnit → Json
  | .rows => .string "rows"
  | .range => .string "range"
  | .groups => .string "groups"

def FetchPosition.toJson : FetchPosition → Json
  | .first => .string "first"
  | .next => .string "next"

def FetchUnit.toJson : FetchUnit → Json
  | .rowsOnly => .string "rows_only"
  | .percent => .string "percent"
  | .withTies => .string "with_ties"

def LockMode.toJson : LockMode → Json
  | .update => .string "update"
  | .noKeyUpdate => .string "no_key_update"
  | .share => .string "share"
  | .keyShare => .string "key_share"

mutual

def Expr.toJson : Expr → Json
  | .literal value => .tagged "literal" value.toJson
  | .raw text => .tagged "raw" (.string text)
  | .column ref => .tagged "column" ref.toJson
  | .function call => .tagged "function" call.toJson
  | .unary operator operand =>
    .tagged "unary" (.object [("operator", .string operator), ("expression", operand.toJson)])
  | .binary left operator right =>
    .tagged "binary" (.object
      [("left", left.toJson), ("operator", .string operator), ("right", right.toJson)])
  | .parameter name => .tagged "parameter" (.object [("name", .string name)])
  | .array content => .tagged "array" (.object [("expression", content.toJson)])
  | .tuple values => .tagged "tuple" (.object [("values", .array (exprsToJson values))])
  | .list values => .tagged "list" (.object [("values", .array (exprsToJson values))])
  | .case subject switch =>
    .tagged "case" (.object [("condition", exprOrNull subject), ("switch", switch.toJson)])
  | .cast input type =>
    .tagged "cast" (.object [("input", input.toJson), ("cast_type", type.toJson)])
  | .paren inner => .tagged "paren" (.object [("expression", inner.toJson)])
  | .between operand lower upper negated =>
    .tagged "between" (.object
      [("expression", operand.toJson), ("lower", lower.toJson), ("upper", upper.toJson),
       ("negated", .boolean negated)])
  | .type type => .tagged "type" type.toJson
  | .specifiedString specifier value =>
    .tagged "string_specifier" (.object [("specifier", .string specifier), ("value", value.toJson)])
  | .inlineQuery query => .tagged "inline_query" (.object [("query", query.toJson)])

def exprsToJson : List Expr → List Json
  | [] => []
  | e :: es => e.toJson :: exprsToJson es

def exprOrNull : Option Expr → Json
  | none => .null
  | some e => e.toJson

def FunctionCall.toJson : FunctionCall → Json
  | ⟨namespaces, name, argument, window⟩ =>
    .object [("namespaces", .names namespaces), ("name", .string name),
      ("argument", exprOrNull argument),
      ("over", match window with | none => .null | some window => window.toJson)]

def TypeRef.toJson : TypeRef → Json
  | ⟨name, argument⟩ => .object [("name", .string name), ("argument", exprOrNull argument)]

def Switch.toJson : Switch → Json
  | ⟨branches, otherwise⟩ =>
    .object [("cases", .array (branchesToJson branches)), ("else_value", exprOrNull otherwise)]

def branchesToJson : List Branch → List Json
  | [] => []
  | b :: bs => b.toJson :: branchesToJson bs

def Branch.toJson : Branch → Json
  | ⟨key, value⟩ => .object [("key", key.toJson), ("value", value.toJson)]

def Over.toJson : Over → Json
  | .named name => .tagged "named" (.string name)
  | .window spec => .tagged "window" spec.toJson

def WindowSpec.toJson : WindowSpec → Json
  | ⟨partition, order, frame⟩ =>
    .object
      [("partition", match partition with
          | none => .null
          | some values => .object [("values", .array (exprsToJson values))]),
       ("order", orderToJson order),
       ("frame", match frame with | none => .null | some frame => frame.toJson)]

def orderToJson : Option (List OrderItem) → Json
  | none => .null
  | some items => .object [("items", .array (orderItemsToJson items))]

def orderItemsToJson : List OrderItem → List Json
  | [] => []
  | i :: is => i.toJson :: orderItemsToJson is

def OrderItem.toJson : OrderItem → Json
  | ⟨value, direction, nulls⟩ =>
    .object [("value", value.toJson), ("direction", direction.toJson),
      ("nulls", Json.ofOption NullsPosition.toJson nulls)]

def Frame.toJson : Frame → Json
  | ⟨unit, start, stop⟩ =>
    .object [("frame_type", unit.toJson), ("start", start.toJson),
      ("end", match stop with | none => .null | some stop => stop.toJson)]

def Bound.toJson : Bound → Json
  | .unboundedPreceding => .string "unbounded_preceding"
  | .unboundedFollowing => .string "unbounded_following"
  | .currentRow => .string "current_row"
  | .preceding offset => .tagged "preceding" offset.toJson
  | .following offset => .tagged "following" offset.toJson

def Query.toJson : Query → Json
  | .simple select => .tagged "simple" select.toJson
  | .binary left operator right =>
    .tagged "binary" (.object
      [("left", left.toJson), ("operator", .string operator), ("right", right.toJson)])
  | .values rows => .tagged "values" (.object [("tuples", .array (rowsToJson rows))])

def rowsToJson : List (List Expr) → List Json
  | [] => []
  | row :: rows => .object [("values", .array (exprsToJson row))] :: rowsToJson rows

def Select.toJson : Select → Json
  | ⟨commonTables, clause, source, condition, groupBy, having, windows, orderBy, limit, fetch,
      lock⟩ =>
    .object
      [("with", match commonTables with | none => .null | some w => w.toJson),
       ("select", clause.toJson),
       ("from", match source with | none => .null | some f => f.toJson),
       ("where_clause", match condition with
          | none => .null
          | some e => .object [("condition", e.toJson)]),
       ("group_by", match groupBy with
          | none => .null
          | some items => .object [("items", .array (exprsToJson items))]),
       ("having", match having with
          | none => .null
          | some e => .object [("condition", e.toJson)]),
       ("window", match windows with
          | none => .null
          | some windows => .object [("windows", .array (windowsToJson windows))]),
       ("order_by", orderToJson orderBy),
       ("limit", match limit with | none => .null | some l => l.toJson),
       ("fetch", match fetch with | none => .null | some f => f.toJson),
       ("for_clause",
         Json.ofOption (fun mode => .object [("lock_mode", LockMode.toJson mode)]) lock)]

def With.toJson : With → Json
  | ⟨recursive, tables⟩ =>
    .object [("recursive", .boolean recursive), ("tables", .array (commonTablesToJson tables))]

def commonTablesToJson : List CommonTable → List Json
  | [] => []
  | t :: ts => t.toJson :: commonTablesToJson ts

def CommonTable.toJson : CommonTable → Json
  | ⟨header, materialized, query⟩ =>
    .object [("alias", header.toJson), ("materialized", Json.ofOption .boolean materialized),
      ("query", query.toJson)]

def SelectClause.toJson : SelectClause → Json
  | ⟨distinct, items⟩ =>
    .object
      [("distinct", match distinct with | none => .null | some d => d.toJson),
       ("items", .array (selectItemsToJson items))]

def Distinct.toJson : Distinct → Json
  | .rows => .string "distinct"
  | .on values => .tagged "distinct_on" (.object [("values", .array (exprsToJson values))])

def selectItemsToJson : List SelectItem → List Json
  | [] => []
  | i :: is => i.toJson :: selectItemsToJson is

def SelectItem.toJson : SelectItem → Json
  | ⟨value, aliasName⟩ =>
    .object [("value", value.toJson), ("alias", Json.ofOption .string aliasName)]

def From.toJson : From → Json
  | ⟨source, joins⟩ => .object [("source", source.toJson), ("joins", .array (joinsToJson joins))]

def joinsToJson : List Join → List Json
  | [] => []
  | j :: js => j.toJson :: joinsToJson js

def Join.toJson : Join → Json
  | ⟨kind, lateral, source, condition⟩ =>
    .object [("join_type", .string kind), ("lateral", .boolean lateral), ("source", source.toJson),
      ("condition", match condition with | none => .null | some c => c.toJson)]

def JoinCondition.toJson : JoinCondition → Json
  | .on condition => .tagged "on" condition.toJson
  | .columns ns => .tagged "using" (.names ns)

def Source.toJson : Source → Json
  | ⟨data, sourceAlias⟩ =>
    .object
      [("datasource", data.toJson), ("alias", Json.ofOption SourceAlias.toJson sourceAlias)]

def DataSource.toJson : DataSource → Json
  | .table table => .tagged "table" table.toJson
  | .subQuery query => .tagged "sub_query" query.toJson
  | .function call => .tagged "function" call.toJson

def windowsToJson : List WindowDef → List Json
  | [] => []
  | w :: ws => w.toJson :: windowsToJson ws

def WindowDef.toJson : WindowDef → Json
  | ⟨name, spec⟩ => .object [("name", .string name), ("expression", spec.toJson)]

def Limit.toJson : Limit → Json
  | ⟨limit, offset⟩ => .object [("limit", exprOrNull limit), ("offset", exprOrNull offset)]

def Fetch.toJson : Fetch → Json
  | ⟨position, count, unit⟩ =>
    .object [("position", position.toJson), ("count", exprOrNull count), ("unit", unit.toJson)]

end

end SqlQuery
