import SqlQuery.Proofs.Tree.Below

/-!
Trees without redundant aliases: those of select items that repeat the name of a column, and those of
sources that repeat the name of a table and rename no column. Nothing else changes, and nothing is
left to erase.
-/

namespace SqlQuery

mutual

/-- The value with the redundant aliases of all queries inside it erased. -/
def Expr.erase : Expr → Expr
  | .literal value => .literal value
  | .raw text => .raw text
  | .column ref => .column ref
  | .function call => .function call.erase
  | .unary operator operand => .unary operator operand.erase
  | .binary left operator right => .binary left.erase operator right.erase
  | .parameter name => .parameter name
  | .array content => .array content.erase
  | .tuple values => .tuple (eraseExprs values)
  | .list values => .list (eraseExprs values)
  | .case subject switch => .case (eraseExpr? subject) switch.erase
  | .cast input type => .cast input.erase type.erase
  | .paren inner => .paren inner.erase
  | .between operand lower upper negated => .between operand.erase lower.erase upper.erase negated
  | .type type => .type type.erase
  | .specifiedString specifier value => .specifiedString specifier value
  | .inlineQuery query => .inlineQuery query.erase

def eraseExprs : List Expr → List Expr
  | [] => []
  | e :: es => e.erase :: eraseExprs es

def eraseExpr? : Option Expr → Option Expr
  | none => none
  | some e => some e.erase

def eraseValues? : Option (List Expr) → Option (List Expr)
  | none => none
  | some es => some (eraseExprs es)

def FunctionCall.erase : FunctionCall → FunctionCall
  | ⟨namespaces, name, argument, window⟩ =>
    ⟨namespaces, name, eraseExpr? argument, eraseOver? window⟩

def TypeRef.erase : TypeRef → TypeRef
  | ⟨name, argument⟩ => ⟨name, eraseExpr? argument⟩

def Switch.erase : Switch → Switch
  | ⟨branches, otherwise⟩ => ⟨eraseBranches branches, eraseExpr? otherwise⟩

def eraseBranches : List Branch → List Branch
  | [] => []
  | b :: bs => b.erase :: eraseBranches bs

def Branch.erase : Branch → Branch
  | ⟨key, value⟩ => ⟨key.erase, value.erase⟩

def eraseOver? : Option Over → Option Over
  | none => none
  | some o => some o.erase

def Over.erase : Over → Over
  | .named name => .named name
  | .window spec => .window spec.erase

def WindowSpec.erase : WindowSpec → WindowSpec
  | ⟨partition, order, frame⟩ => ⟨eraseValues? partition, eraseOrder? order, eraseFrame? frame⟩

def eraseOrder? : Option (List OrderItem) → Option (List OrderItem)
  | none => none
  | some items => some (eraseOrderItems items)

def eraseOrderItems : List OrderItem → List OrderItem
  | [] => []
  | i :: is => i.erase :: eraseOrderItems is

def OrderItem.erase : OrderItem → OrderItem
  | ⟨value, direction, nulls⟩ => ⟨value.erase, direction, nulls⟩

def eraseFrame? : Option Frame → Option Frame
  | none => none
  | some f => some f.erase

def Frame.erase : Frame → Frame
  | ⟨unit, start, stop⟩ => ⟨unit, start.erase, eraseBound? stop⟩

def eraseBound? : Option Bound → Option Bound
  | none => none
  | some b => some b.erase

def Bound.erase : Bound → Bound
  | .unboundedPreceding => .unboundedPreceding
  | .unboundedFollowing => .unboundedFollowing
  | .currentRow => .currentRow
  | .preceding offset => .preceding offset.erase
  | .following offset => .following offset.erase

/-- The query with all its redundant aliases erased. -/
def Query.erase : Query → Query
  | .simple select => .simple select.erase
  | .binary left operator right => .binary left.erase operator right.erase
  | .values rows => .values (eraseRows rows)

def eraseRows : List (List Expr) → List (List Expr)
  | [] => []
  | row :: rows => eraseExprs row :: eraseRows rows

def Select.erase : Select → Select
  | ⟨commonTables, clause, source, condition, groupBy, having, windows, orderBy, limit, fetch,
      lock⟩ =>
    ⟨eraseWith? commonTables, clause.erase, eraseFrom? source, eraseExpr? condition,
      eraseValues? groupBy, eraseExpr? having, eraseWindows? windows, eraseOrder? orderBy,
      eraseLimit? limit, eraseFetch? fetch, lock⟩

def eraseWith? : Option With → Option With
  | none => none
  | some w => some w.erase

def With.erase : With → With
  | ⟨recursive, tables⟩ => ⟨recursive, eraseTables tables⟩

def eraseTables : List CommonTable → List CommonTable
  | [] => []
  | t :: ts => t.erase :: eraseTables ts

def CommonTable.erase : CommonTable → CommonTable
  | ⟨header, materialized, query⟩ => ⟨header, materialized, query.erase⟩

def SelectClause.erase : SelectClause → SelectClause
  | ⟨distinct, items⟩ => ⟨eraseDistinct? distinct, eraseItems items⟩

def eraseDistinct? : Option Distinct → Option Distinct
  | none => none
  | some d => some d.erase

def Distinct.erase : Distinct → Distinct
  | .rows => .rows
  | .on values => .on (eraseExprs values)

def eraseItems : List SelectItem → List SelectItem
  | [] => []
  | i :: is => i.erase :: eraseItems is

/-- The item without its alias, if the alias repeats the name of the column. -/
def SelectItem.erase : SelectItem → SelectItem
  | ⟨value, aliasName⟩ => ⟨value.erase, SelectItem.effectiveAlias ⟨value, aliasName⟩⟩

def eraseFrom? : Option From → Option From
  | none => none
  | some f => some f.erase

def From.erase : From → From
  | ⟨source, joins⟩ => ⟨source.erase, eraseJoins joins⟩

def eraseJoins : List Join → List Join
  | [] => []
  | j :: js => j.erase :: eraseJoins js

def Join.erase : Join → Join
  | ⟨kind, lateral, source, condition⟩ => ⟨kind, lateral, source.erase, eraseCondition? condition⟩

def eraseCondition? : Option JoinCondition → Option JoinCondition
  | none => none
  | some c => some c.erase

def JoinCondition.erase : JoinCondition → JoinCondition
  | .on condition => .on condition.erase
  | .columns names => .columns names

/-- The source without its alias, if the alias repeats the name of the table and no more. -/
def Source.erase : Source → Source
  | ⟨data, sourceAlias⟩ => ⟨data.erase, Source.effectiveAlias ⟨data, sourceAlias⟩⟩

def DataSource.erase : DataSource → DataSource
  | .table table => .table table
  | .subQuery query => .subQuery query.erase
  | .function call => .function call.erase

def eraseWindows? : Option (List WindowDef) → Option (List WindowDef)
  | none => none
  | some ws => some (eraseWindowDefs ws)

def eraseWindowDefs : List WindowDef → List WindowDef
  | [] => []
  | w :: ws => w.erase :: eraseWindowDefs ws

def WindowDef.erase : WindowDef → WindowDef
  | ⟨name, spec⟩ => ⟨name, spec.erase⟩

def eraseLimit? : Option Limit → Option Limit
  | none => none
  | some l => some l.erase

def Limit.erase : Limit → Limit
  | ⟨limit, offset⟩ => ⟨eraseExpr? limit, eraseExpr? offset⟩

def eraseFetch? : Option Fetch → Option Fetch
  | none => none
  | some f => some f.erase

def Fetch.erase : Fetch → Fetch
  | ⟨position, count, unit⟩ => ⟨position, eraseExpr? count, unit⟩

end

/-- A node of any kind, without the redundant aliases in it. -/
def Node.erase : Node → Node
  | .expr e => .expr e.erase
  | .query q => .query q.erase
  | .identifier name => .identifier name
  | .switch s => .switch s.erase
  | .branch b => .branch b.erase
  | .select c => .select c.erase
  | .selectItem i => .selectItem i.erase
  | .distinct d => .distinct d.erase
  | .fromClause f => .fromClause f.erase
  | .join j => .join j.erase
  | .source s => .source s.erase
  | .table t => .table t
  | .sourceAlias a => .sourceAlias a
  | .filter condition => .filter condition.erase
  | .groupBy items => .groupBy (eraseExprs items)
  | .having condition => .having condition.erase
  | .orderBy items => .orderBy (eraseOrderItems items)
  | .orderItem i => .orderItem i.erase
  | .partitionBy values => .partitionBy (eraseExprs values)
  | .overClause o => .overClause o.erase
  | .windowSpec w => .windowSpec w.erase
  | .frame f => .frame f.erase
  | .windowDef w => .windowDef w.erase
  | .windows ws => .windows (eraseWindowDefs ws)
  | .commonTables w => .commonTables w.erase
  | .commonTable t => .commonTable t.erase
  | .limit l => .limit l.erase
  | .fetch f => .fetch f.erase
  | .lock mode => .lock mode

/-! What is listed and what may be missing, in terms of its parts. -/

@[simp] theorem eraseExprs_eq (es : List Expr) : eraseExprs es = es.map Expr.erase :=
  eq_map_of_cons rfl (fun _ _ => rfl) es

@[simp] theorem eraseBranches_eq (bs : List Branch) : eraseBranches bs = bs.map Branch.erase :=
  eq_map_of_cons rfl (fun _ _ => rfl) bs

@[simp] theorem eraseOrderItems_eq (is : List OrderItem) :
    eraseOrderItems is = is.map OrderItem.erase :=
  eq_map_of_cons rfl (fun _ _ => rfl) is

@[simp] theorem eraseRows_eq (rows : List (List Expr)) :
    eraseRows rows = rows.map (List.map Expr.erase) :=
  eq_map_of_cons rfl (fun row rows => by rw [eraseRows, eraseExprs_eq]) rows

@[simp] theorem eraseTables_eq (ts : List CommonTable) :
    eraseTables ts = ts.map CommonTable.erase :=
  eq_map_of_cons rfl (fun _ _ => rfl) ts

@[simp] theorem eraseItems_eq (is : List SelectItem) : eraseItems is = is.map SelectItem.erase :=
  eq_map_of_cons rfl (fun _ _ => rfl) is

@[simp] theorem eraseJoins_eq (js : List Join) : eraseJoins js = js.map Join.erase :=
  eq_map_of_cons rfl (fun _ _ => rfl) js

@[simp] theorem eraseWindowDefs_eq (ws : List WindowDef) :
    eraseWindowDefs ws = ws.map WindowDef.erase :=
  eq_map_of_cons rfl (fun _ _ => rfl) ws

@[simp] theorem eraseExpr?_eq (o : Option Expr) : eraseExpr? o = o.map Expr.erase := by
  cases o <;> rfl

@[simp] theorem eraseValues?_eq (o : Option (List Expr)) :
    eraseValues? o = o.map (List.map Expr.erase) := by
  cases o <;> simp [eraseValues?]

@[simp] theorem eraseOver?_eq (o : Option Over) : eraseOver? o = o.map Over.erase := by
  cases o <;> rfl

@[simp] theorem eraseOrder?_eq (o : Option (List OrderItem)) :
    eraseOrder? o = o.map (List.map OrderItem.erase) := by
  cases o <;> simp [eraseOrder?]

@[simp] theorem eraseFrame?_eq (o : Option Frame) : eraseFrame? o = o.map Frame.erase := by
  cases o <;> rfl

@[simp] theorem eraseBound?_eq (o : Option Bound) : eraseBound? o = o.map Bound.erase := by
  cases o <;> rfl

@[simp] theorem eraseWith?_eq (o : Option With) : eraseWith? o = o.map With.erase := by
  cases o <;> rfl

@[simp] theorem eraseDistinct?_eq (o : Option Distinct) :
    eraseDistinct? o = o.map Distinct.erase := by
  cases o <;> rfl

@[simp] theorem eraseFrom?_eq (o : Option From) : eraseFrom? o = o.map From.erase := by
  cases o <;> rfl

@[simp] theorem eraseCondition?_eq (o : Option JoinCondition) :
    eraseCondition? o = o.map JoinCondition.erase := by
  cases o <;> rfl

@[simp] theorem eraseWindows?_eq (o : Option (List WindowDef)) :
    eraseWindows? o = o.map (List.map WindowDef.erase) := by
  cases o <;> simp [eraseWindows?]

@[simp] theorem eraseLimit?_eq (o : Option Limit) : eraseLimit? o = o.map Limit.erase := by
  cases o <;> rfl

@[simp] theorem eraseFetch?_eq (o : Option Fetch) : eraseFetch? o = o.map Fetch.erase := by
  cases o <;> rfl

/-! The tests for an alias look at the names of columns and tables, which are not erased. -/

theorem SelectItem.effectiveAlias_erase (i : SelectItem) :
    i.erase.effectiveAlias = i.effectiveAlias := by
  obtain ⟨value, aliasName⟩ := i
  cases value <;> simp [SelectItem.erase, Expr.erase, effectiveAlias, Option.filter_filter]

theorem Source.effectiveAlias_erase (s : Source) : s.erase.effectiveAlias = s.effectiveAlias := by
  obtain ⟨data, sourceAlias⟩ := s
  cases data <;> simp [Source.erase, DataSource.erase, effectiveAlias, Option.filter_filter]

theorem SelectItem.erase_eq (i : SelectItem) : i.erase = ⟨i.value.erase, i.effectiveAlias⟩ := by
  cases i
  rfl

theorem Source.erase_eq (s : Source) : s.erase = ⟨s.data.erase, s.effectiveAlias⟩ := by
  cases s
  rfl


/-! Erasing twice. -/

open Child

theorem map_erased {α : Type} {f : α → α} {as : List α} (each : ∀ a ∈ as, f (f a) = f a) :
    (as.map f).map f = as.map f := by
  rw [List.map_map]
  exact List.map_congr_left each

theorem map_erased? {α : Type} {f : α → α} {o : Option α} (inner : ∀ a ∈ o, f (f a) = f a) :
    (o.map f).map f = o.map f := by
  cases o with
  | none => rfl
  | some a => exact congrArg some (inner a rfl)

/-- Nothing is left to erase in the children of the node once they are erased. -/
def Node.Erases (n : Node) : Prop := ∀ c ∈ n.children, c.2.erase.erase = c.2.erase

theorem Expr.erase_erase_of (e : Expr) (parts : (Node.expr e).Erases) : e.erase.erase = e.erase := by
  cases e with
  | function call =>
    obtain ⟨namespaces, name, argument, window⟩ := call
    simp only [Node.Erases, Node.children, children, FunctionCall.children, List.forall_mem_append,
      forall_maybe, Node.erase, Node.expr.injEq, Node.overClause.injEq] at parts
    simp [erase, FunctionCall.erase, map_erased? parts.1.2, map_erased? parts.2]
  | case subject s =>
    simp only [Node.Erases, Node.children, children, List.forall_mem_append, forall_maybe,
      List.forall_mem_singleton, Node.erase, Node.expr.injEq, Node.switch.injEq] at parts
    simp [erase, map_erased? parts.1, parts.2]
  | type ref =>
    obtain ⟨name, argument⟩ := ref
    simp only [Node.Erases, Node.children, children, TypeRef.children, List.forall_mem_cons,
      forall_maybe, Node.erase, Node.expr.injEq] at parts
    simp [erase, TypeRef.erase, map_erased? parts.2]
  | tuple es | list es =>
    simp only [Node.Erases, Node.children, children, forall_each, Node.erase, Node.expr.injEq] at parts
    simp only [erase, eraseExprs_eq, map_erased parts]
  | literal _ | raw _ | column _ | parameter _ | specifiedString _ _ => rfl
  | _ => simpa [Node.Erases, Node.children, children, Node.erase, erase] using parts

theorem Query.erase_erase_of (q : Query) (parts : (Node.query q).Erases) : q.erase.erase = q.erase := by
  cases q with
  | simple s =>
    obtain ⟨w, c, f, e, es, g, ws, is, l, x, mode⟩ := s
    simp only [Node.Erases, Node.children, children, Select.children, List.forall_mem_append,
      forall_maybe, List.forall_mem_singleton, Node.erase, Node.commonTables.injEq, Node.select.injEq,
      Node.fromClause.injEq, Node.filter.injEq, Node.groupBy.injEq, Node.having.injEq,
      Node.windows.injEq, Node.orderBy.injEq, Node.limit.injEq, Node.fetch.injEq, eraseExprs_eq,
      eraseWindowDefs_eq, eraseOrderItems_eq] at parts
    obtain ⟨⟨⟨⟨⟨⟨⟨⟨⟨⟨tables, clause⟩, source⟩, condition⟩, groupBy⟩, having⟩, windows⟩, orderBy⟩, limit⟩,
      fetch⟩, _⟩ := parts
    simp [erase, Select.erase, map_erased? tables, clause, map_erased? source, map_erased? condition,
      map_erased? groupBy, map_erased? having, map_erased? windows, map_erased? orderBy,
      map_erased? limit, map_erased? fetch]
  | binary left operator right =>
    simpa [Node.Erases, Node.children, children, Node.erase, erase, Expr.erase] using parts
  | values rows =>
    simp only [Node.Erases, Node.children, children, forall_each, Node.erase, Node.expr.injEq,
      Expr.erase, Expr.tuple.injEq, eraseExprs_eq] at parts
    simp only [erase, eraseRows_eq, map_erased parts]

theorem DataSource.erase_erase_of (d : DataSource) (h : d.node.erase.erase = d.node.erase) :
    d.erase.erase = d.erase := by
  cases d <;> simp_all [node, Node.erase, erase, Expr.erase]

theorem Bound.erase_erase_of (b : Bound)
    (h : ∀ e ∈ b.offset?, (Node.expr e).erase.erase = (Node.expr e).erase) :
    b.erase.erase = b.erase := by
  cases b <;> simp_all [offset?, Node.erase, erase]

/-- What has been erased is not there to be erased again, in the node itself and in its parts. -/
theorem Node.erase_erase (n : Node) : n.erase.erase = n.erase := by
  induction n using children_induction with
  | step n ih =>
    cases n with
    | expr e => exact congrArg Node.expr (e.erase_erase_of ih)
    | query q => exact congrArg Node.query (q.erase_erase_of ih)
    | identifier _ | table _ | sourceAlias _ | lock _ => rfl
    | switch s =>
      obtain ⟨branches, otherwise⟩ := s
      simp only [children, List.forall_mem_append, forall_each, forall_maybe, erase, Node.branch.injEq,
        Node.expr.injEq] at ih
      simp [erase, Switch.erase, map_erased ih.1, map_erased? ih.2]
    | select c =>
      obtain ⟨distinct, items⟩ := c
      simp only [children, List.forall_mem_append, forall_each, forall_maybe, erase,
        Node.selectItem.injEq, Node.distinct.injEq] at ih
      simp [erase, SelectClause.erase, map_erased? ih.1, map_erased ih.2]
    | selectItem i =>
      have value := Node.expr.inj (ih ("value", .expr i.value) List.mem_cons_self)
      simp only [erase]
      rw [SelectItem.erase_eq i.erase, i.effectiveAlias_erase, SelectItem.erase_eq i, value]
    | distinct d =>
      cases d with
      | rows => rfl
      | on es =>
        simp [children, Distinct.children, erase, Expr.erase] at ih
        simp [erase, Distinct.erase, map_erased ih]
    | fromClause f =>
      obtain ⟨source, joins⟩ := f
      simp only [children, List.forall_mem_cons, forall_each, erase, Node.source.injEq,
        Node.join.injEq] at ih
      simp [erase, From.erase, ih.1, map_erased ih.2]
    | join j =>
      obtain ⟨kind, lateral, source, condition⟩ := j
      obtain _ | ⟨condition | names⟩ := condition
      · simpa [children, erase, Expr.erase, Join.erase] using ih
      · simpa [children, JoinCondition.children, erase, Expr.erase, Join.erase, JoinCondition.erase]
          using ih
      · have same := Node.source.inj (ih ("source", .source source) (by simp [children]))
        simp [erase, Join.erase, JoinCondition.erase, same]
    | source s =>
      have data := s.data.erase_erase_of (ih ("datasource", s.data.node) List.mem_cons_self)
      simp only [erase]
      rw [Source.erase_eq s.erase, s.effectiveAlias_erase, Source.erase_eq s, data]
    | filter e | having e => simpa [children, erase] using ih
    | groupBy es | partitionBy es =>
      simp only [children, forall_each, erase, Node.expr.injEq] at ih
      simp only [erase, eraseExprs_eq, map_erased ih]
    | orderBy is =>
      simp only [children, forall_each, erase, Node.orderItem.injEq] at ih
      simp only [erase, eraseOrderItems_eq, map_erased ih]
    | windows ws =>
      simp only [children, forall_each, erase, Node.windowDef.injEq] at ih
      simp only [erase, eraseWindowDefs_eq, map_erased ih]
    | orderItem i =>
      cases i
      simpa [children, erase, OrderItem.erase] using ih
    | overClause o =>
      cases o with
      | named name => rfl
      | window spec => simpa [children, Over.children, erase, Over.erase] using ih
    | windowSpec w =>
      obtain ⟨partition, order, frame⟩ := w
      simp only [children, List.forall_mem_append, forall_maybe, erase, Node.partitionBy.injEq,
        Node.orderBy.injEq, Node.frame.injEq, eraseExprs_eq, eraseOrderItems_eq] at ih
      simp [erase, WindowSpec.erase, map_erased? ih.1.1, map_erased? ih.1.2, map_erased? ih.2]
    | frame f =>
      obtain ⟨unit, start, stop⟩ := f
      simp only [children, List.forall_mem_append, forall_maybe, Option.mem_def, Option.bind_eq_some_iff] at ih
      have stops : ∀ b ∈ stop, b.erase.erase = b.erase := fun b some =>
        b.erase_erase_of fun e mem => ih.2 e ⟨b, some, mem⟩
      simp [erase, Frame.erase, start.erase_erase_of ih.1, map_erased? stops]
    | windowDef w =>
      cases w
      simpa [children, erase, WindowDef.erase] using ih
    | commonTables w =>
      obtain ⟨recursive, tables⟩ := w
      simp only [children, forall_each, erase, Node.commonTable.injEq] at ih
      simp [erase, With.erase, map_erased ih]
    | commonTable t =>
      cases t
      simpa [children, erase, CommonTable.erase] using ih
    | limit l =>
      obtain ⟨limit, offset⟩ := l
      simp only [children, List.forall_mem_append, forall_maybe, erase, Node.expr.injEq] at ih
      simp [erase, Limit.erase, map_erased? ih.1, map_erased? ih.2]
    | fetch f =>
      obtain ⟨position, count, unit⟩ := f
      simp only [children, forall_maybe, erase, Node.expr.injEq] at ih
      simp [erase, Fetch.erase, map_erased? ih]
    | branch b =>
      cases b
      simpa [children, erase, Branch.erase] using ih
end SqlQuery
