import SqlQuery.Tree.Json

/-!
The JSON forms of what is listed and of the nodes with parts that may be missing, in terms of the
parts.
-/

namespace SqlQuery

@[simp] theorem exprsToJson_eq (es : List Expr) : exprsToJson es = es.map Expr.toJson :=
  eq_map_of_cons rfl (fun _ _ => rfl) es

@[simp] theorem branchesToJson_eq (bs : List Branch) : branchesToJson bs = bs.map Branch.toJson :=
  eq_map_of_cons rfl (fun _ _ => rfl) bs

@[simp] theorem orderItemsToJson_eq (is : List OrderItem) :
    orderItemsToJson is = is.map OrderItem.toJson :=
  eq_map_of_cons rfl (fun _ _ => rfl) is

/-- The form of one row of values. -/
def rowToJson (row : List Expr) : Json := .object [("values", .array (exprsToJson row))]

@[simp] theorem rowsToJson_eq (rows : List (List Expr)) : rowsToJson rows = rows.map rowToJson :=
  eq_map_of_cons rfl (fun _ _ => rfl) rows

@[simp] theorem commonTablesToJson_eq (ts : List CommonTable) :
    commonTablesToJson ts = ts.map CommonTable.toJson :=
  eq_map_of_cons rfl (fun _ _ => rfl) ts

@[simp] theorem selectItemsToJson_eq (is : List SelectItem) :
    selectItemsToJson is = is.map SelectItem.toJson :=
  eq_map_of_cons rfl (fun _ _ => rfl) is

@[simp] theorem joinsToJson_eq (js : List Join) : joinsToJson js = js.map Join.toJson :=
  eq_map_of_cons rfl (fun _ _ => rfl) js

@[simp] theorem windowsToJson_eq (ws : List WindowDef) :
    windowsToJson ws = ws.map WindowDef.toJson :=
  eq_map_of_cons rfl (fun _ _ => rfl) ws

@[simp] theorem exprOrNull_eq (o : Option Expr) : exprOrNull o = .ofOption Expr.toJson o := by
  cases o <;> rfl

@[simp] theorem orderToJson_eq (o : Option (List OrderItem)) : orderToJson o =
    .ofOption (fun is => .object [("items", .array (is.map OrderItem.toJson))]) o := by
  cases o <;> simp [orderToJson, Json.ofOption]

theorem Frame.toJson_eq (frame : Frame) : frame.toJson =
    .object [("frame_type", frame.unit.toJson), ("start", frame.start.toJson),
      ("end", .ofOption Bound.toJson frame.stop)] := by
  obtain ⟨_, _, _ | _⟩ := frame <;> rfl

theorem FunctionCall.toJson_eq (call : FunctionCall) : call.toJson =
    .object [("namespaces", .names call.namespaces), ("name", .string call.name),
      ("argument", exprOrNull call.argument), ("over", .ofOption Over.toJson call.window)] := by
  obtain ⟨_, _, _, _ | _⟩ := call <;> rfl

theorem WindowSpec.toJson_eq (spec : WindowSpec) : spec.toJson =
    .object
      [("partition", .ofOption (fun values => .object [("values", .array (exprsToJson values))])
         spec.partition),
       ("order", orderToJson spec.order), ("frame", .ofOption Frame.toJson spec.frame)] := by
  obtain ⟨_ | _, _, _ | _⟩ := spec <;> rfl

theorem SelectClause.toJson_eq (clause : SelectClause) : clause.toJson =
    .object [("distinct", .ofOption Distinct.toJson clause.distinct),
      ("items", .array (selectItemsToJson clause.items))] := by
  obtain ⟨_ | _, _⟩ := clause <;> rfl

theorem Join.toJson_eq (join : Join) : join.toJson =
    .object [("join_type", .string join.kind), ("lateral", .boolean join.lateral),
      ("source", join.source.toJson),
      ("condition", .ofOption JoinCondition.toJson join.condition)] := by
  obtain ⟨_, _, _, _ | _⟩ := join <;> rfl

/-- The value of the field at this place of an object. -/
def Json.fieldAt (n : Nat) : Json → Json
  | .object fields => (fields[n]?.map Prod.snd).getD .null
  | _ => .null

theorem Select.toJson_eq (select : Select) : select.toJson =
    .object
      [("with", .ofOption With.toJson select.commonTables),
       ("select", select.clause.toJson),
       ("from", .ofOption From.toJson select.source),
       ("where_clause", .ofOption (fun e => .object [("condition", e.toJson)]) select.condition),
       ("group_by", .ofOption (fun es => .object [("items", .array (exprsToJson es))]) select.groupBy),
       ("having", .ofOption (fun e => .object [("condition", e.toJson)]) select.having),
       ("window", .ofOption (fun ws => .object [("windows", .array (windowsToJson ws))])
         select.windows),
       ("order_by", orderToJson select.orderBy),
       ("limit", .ofOption Limit.toJson select.limit),
       ("fetch", .ofOption Fetch.toJson select.fetch),
       ("for_clause", .ofOption (fun mode => .object [("lock_mode", mode.toJson)]) select.lock)] := by
  -- One part after another, as all cases of eight of them at once are too many.
  have fields : select.toJson = .object
      [("with", select.toJson.fieldAt 0), ("select", select.toJson.fieldAt 1),
       ("from", select.toJson.fieldAt 2), ("where_clause", select.toJson.fieldAt 3),
       ("group_by", select.toJson.fieldAt 4), ("having", select.toJson.fieldAt 5),
       ("window", select.toJson.fieldAt 6), ("order_by", select.toJson.fieldAt 7),
       ("limit", select.toJson.fieldAt 8), ("fetch", select.toJson.fieldAt 9),
       ("for_clause", select.toJson.fieldAt 10)] := by cases select; rfl
  refine fields.trans ?_
  obtain ⟨w, c, f, e, es, g, ws, is, l, x, mode⟩ := select
  simp only [Json.object.injEq, List.cons.injEq, Prod.mk.injEq, true_and, and_true]
  exact ⟨by cases w <;> rfl, rfl, by cases f <;> rfl, by cases e <;> rfl, by cases es <;> rfl,
    by cases g <;> rfl, by cases ws <;> rfl, rfl, by cases l <;> rfl, by cases x <;> rfl, rfl⟩

end SqlQuery
