import SqlQuery.Proofs.Tree.Below

/-!
Trees whose parameters are named by number, in the order in which they are written. Nothing else
changes.
-/

namespace SqlQuery

/-- The number of one more parameter, as a name. -/
def nextOrdinal : StateM Nat String := modifyGet fun ordinal => (toString (ordinal + 1), ordinal + 1)

mutual

/-- The value with its parameters numbered after so many others. -/
def Expr.renumber : Expr → StateM Nat Expr
  | .literal value => return .literal value
  | .raw text => return .raw text
  | .column ref => return .column ref
  | .function call => return .function (← call.renumber)
  | .unary operator operand => return .unary operator (← operand.renumber)
  | .binary left operator right => return .binary (← left.renumber) operator (← right.renumber)
  | .parameter _ => return .parameter (← nextOrdinal)
  | .array content => return .array (← content.renumber)
  | .tuple values => return .tuple (← renumberExprs values)
  | .list values => return .list (← renumberExprs values)
  | .case subject switch => return .case (← renumberExpr? subject) (← switch.renumber)
  | .cast input type => return .cast (← input.renumber) (← type.renumber)
  | .paren inner => return .paren (← inner.renumber)
  | .between operand lower upper negated =>
    return .between (← operand.renumber) (← lower.renumber) (← upper.renumber) negated
  | .type type => return .type (← type.renumber)
  | .specifiedString specifier value => return .specifiedString specifier value
  | .inlineQuery query => return .inlineQuery (← query.renumber)

def renumberExprs : List Expr → StateM Nat (List Expr)
  | [] => return []
  | e :: es => return (← e.renumber) :: (← renumberExprs es)

def renumberExpr? : Option Expr → StateM Nat (Option Expr)
  | none => return none
  | some e => return some (← e.renumber)

def renumberValues? : Option (List Expr) → StateM Nat (Option (List Expr))
  | none => return none
  | some es => return some (← renumberExprs es)

def FunctionCall.renumber : FunctionCall → StateM Nat FunctionCall
  | ⟨namespaces, name, argument, window⟩ =>
    return ⟨namespaces, name, ← renumberExpr? argument, ← renumberOver? window⟩

def TypeRef.renumber : TypeRef → StateM Nat TypeRef
  | ⟨name, argument⟩ => return ⟨name, ← renumberExpr? argument⟩

def Switch.renumber : Switch → StateM Nat Switch
  | ⟨branches, otherwise⟩ => return ⟨← renumberBranches branches, ← renumberExpr? otherwise⟩

def renumberBranches : List Branch → StateM Nat (List Branch)
  | [] => return []
  | b :: bs => return (← b.renumber) :: (← renumberBranches bs)

def Branch.renumber : Branch → StateM Nat Branch
  | ⟨key, value⟩ => return ⟨← key.renumber, ← value.renumber⟩

def renumberOver? : Option Over → StateM Nat (Option Over)
  | none => return none
  | some o => return some (← o.renumber)

def Over.renumber : Over → StateM Nat Over
  | .named name => return .named name
  | .window spec => return .window (← spec.renumber)

def WindowSpec.renumber : WindowSpec → StateM Nat WindowSpec
  | ⟨partition, order, frame⟩ =>
    return ⟨← renumberValues? partition, ← renumberOrder? order, ← renumberFrame? frame⟩

def renumberOrder? : Option (List OrderItem) → StateM Nat (Option (List OrderItem))
  | none => return none
  | some items => return some (← renumberOrderItems items)

def renumberOrderItems : List OrderItem → StateM Nat (List OrderItem)
  | [] => return []
  | i :: is => return (← i.renumber) :: (← renumberOrderItems is)

def OrderItem.renumber : OrderItem → StateM Nat OrderItem
  | ⟨value, direction, nulls⟩ => return ⟨← value.renumber, direction, nulls⟩

def renumberFrame? : Option Frame → StateM Nat (Option Frame)
  | none => return none
  | some f => return some (← f.renumber)

def Frame.renumber : Frame → StateM Nat Frame
  | ⟨unit, start, stop⟩ => return ⟨unit, ← start.renumber, ← renumberBound? stop⟩

def renumberBound? : Option Bound → StateM Nat (Option Bound)
  | none => return none
  | some b => return some (← b.renumber)

def Bound.renumber : Bound → StateM Nat Bound
  | .unboundedPreceding => return .unboundedPreceding
  | .unboundedFollowing => return .unboundedFollowing
  | .currentRow => return .currentRow
  | .preceding offset => return .preceding (← offset.renumber)
  | .following offset => return .following (← offset.renumber)

/-- The query with its parameters numbered after so many others. -/
def Query.renumber : Query → StateM Nat Query
  | .simple select => return .simple (← select.renumber)
  | .binary left operator right => return .binary (← left.renumber) operator (← right.renumber)
  | .values rows => return .values (← renumberRows rows)

def renumberRows : List (List Expr) → StateM Nat (List (List Expr))
  | [] => return []
  | row :: rows => return (← renumberExprs row) :: (← renumberRows rows)

def Select.renumber : Select → StateM Nat Select
  | ⟨commonTables, clause, source, condition, groupBy, having, windows, orderBy, limit, fetch,
      lock⟩ =>
    return ⟨← renumberWith? commonTables, ← clause.renumber, ← renumberFrom? source,
      ← renumberExpr? condition, ← renumberValues? groupBy, ← renumberExpr? having,
      ← renumberWindows? windows, ← renumberOrder? orderBy, ← renumberLimit? limit, ← renumberFetch? fetch,
      lock⟩

def renumberWith? : Option With → StateM Nat (Option With)
  | none => return none
  | some w => return some (← w.renumber)

def With.renumber : With → StateM Nat With
  | ⟨recursive, tables⟩ => return ⟨recursive, ← renumberTables tables⟩

def renumberTables : List CommonTable → StateM Nat (List CommonTable)
  | [] => return []
  | t :: ts => return (← t.renumber) :: (← renumberTables ts)

def CommonTable.renumber : CommonTable → StateM Nat CommonTable
  | ⟨header, materialized, query⟩ => return ⟨header, materialized, ← query.renumber⟩

def SelectClause.renumber : SelectClause → StateM Nat SelectClause
  | ⟨distinct, items⟩ => return ⟨← renumberDistinct? distinct, ← renumberItems items⟩

def renumberDistinct? : Option Distinct → StateM Nat (Option Distinct)
  | none => return none
  | some d => return some (← d.renumber)

def Distinct.renumber : Distinct → StateM Nat Distinct
  | .rows => return .rows
  | .on values => return .on (← renumberExprs values)

def renumberItems : List SelectItem → StateM Nat (List SelectItem)
  | [] => return []
  | i :: is => return (← i.renumber) :: (← renumberItems is)

def SelectItem.renumber : SelectItem → StateM Nat SelectItem
  | ⟨value, aliasName⟩ => return ⟨← value.renumber, aliasName⟩

def renumberFrom? : Option From → StateM Nat (Option From)
  | none => return none
  | some f => return some (← f.renumber)

def From.renumber : From → StateM Nat From
  | ⟨source, joins⟩ => return ⟨← source.renumber, ← renumberJoins joins⟩

def renumberJoins : List Join → StateM Nat (List Join)
  | [] => return []
  | j :: js => return (← j.renumber) :: (← renumberJoins js)

def Join.renumber : Join → StateM Nat Join
  | ⟨kind, lateral, source, condition⟩ =>
    return ⟨kind, lateral, ← source.renumber, ← renumberCondition? condition⟩

def renumberCondition? : Option JoinCondition → StateM Nat (Option JoinCondition)
  | none => return none
  | some c => return some (← c.renumber)

def JoinCondition.renumber : JoinCondition → StateM Nat JoinCondition
  | .on condition => return .on (← condition.renumber)
  | .columns names => return .columns names

def Source.renumber : Source → StateM Nat Source
  | ⟨data, sourceAlias⟩ => return ⟨← data.renumber, sourceAlias⟩

def DataSource.renumber : DataSource → StateM Nat DataSource
  | .table table => return .table table
  | .subQuery query => return .subQuery (← query.renumber)
  | .function call => return .function (← call.renumber)

def renumberWindows? : Option (List WindowDef) → StateM Nat (Option (List WindowDef))
  | none => return none
  | some ws => return some (← renumberWindowDefs ws)

def renumberWindowDefs : List WindowDef → StateM Nat (List WindowDef)
  | [] => return []
  | w :: ws => return (← w.renumber) :: (← renumberWindowDefs ws)

def WindowDef.renumber : WindowDef → StateM Nat WindowDef
  | ⟨name, spec⟩ => return ⟨name, ← spec.renumber⟩

def renumberLimit? : Option Limit → StateM Nat (Option Limit)
  | none => return none
  | some l => return some (← l.renumber)

def Limit.renumber : Limit → StateM Nat Limit
  | ⟨limit, offset⟩ => return ⟨← renumberExpr? limit, ← renumberExpr? offset⟩

def renumberFetch? : Option Fetch → StateM Nat (Option Fetch)
  | none => return none
  | some f => return some (← f.renumber)

def Fetch.renumber : Fetch → StateM Nat Fetch
  | ⟨position, count, unit⟩ => return ⟨position, ← renumberExpr? count, unit⟩

end

/-- A node of any kind, with its parameters numbered after so many others. -/
def Node.renumber : Node → StateM Nat Node
  | .expr e => return .expr (← e.renumber)
  | .query q => return .query (← q.renumber)
  | .identifier name => return .identifier name
  | .switch s => return .switch (← s.renumber)
  | .branch b => return .branch (← b.renumber)
  | .select c => return .select (← c.renumber)
  | .selectItem i => return .selectItem (← i.renumber)
  | .distinct d => return .distinct (← d.renumber)
  | .fromClause f => return .fromClause (← f.renumber)
  | .join j => return .join (← j.renumber)
  | .source s => return .source (← s.renumber)
  | .table t => return .table t
  | .sourceAlias a => return .sourceAlias a
  | .filter condition => return .filter (← condition.renumber)
  | .groupBy items => return .groupBy (← renumberExprs items)
  | .having condition => return .having (← condition.renumber)
  | .orderBy items => return .orderBy (← renumberOrderItems items)
  | .orderItem i => return .orderItem (← i.renumber)
  | .partitionBy values => return .partitionBy (← renumberExprs values)
  | .overClause o => return .overClause (← o.renumber)
  | .windowSpec w => return .windowSpec (← w.renumber)
  | .frame f => return .frame (← f.renumber)
  | .windowDef w => return .windowDef (← w.renumber)
  | .windows ws => return .windows (← renumberWindowDefs ws)
  | .commonTables w => return .commonTables (← w.renumber)
  | .commonTable t => return .commonTable (← t.renumber)
  | .limit l => return .limit (← l.renumber)
  | .fetch f => return .fetch (← f.renumber)
  | .lock mode => return .lock mode

/-- The query with its parameters numbered from the first on. -/
def Query.numbered (q : Query) : Query := (q.renumber 0).1

/-! What is listed is numbered one after the other. -/

section Numbering

variable {α β : Type} {f : α → StateM Nat β} {as : List α} {k : Nat}

@[simp] theorem numbering_pure (a : α) : (pure a : StateM Nat α) k = (a, k) := rfl

@[simp] theorem numbering_map (g : α → β) (x : StateM Nat α) : (g <$> x) k = (g (x k).1, (x k).2) := rfl

@[simp] theorem numbering_bind (x : StateM Nat α) : (x >>= f) k = f (x k).1 (x k).2 := rfl

theorem eq_mapM_of_cons (g : List α → StateM Nat (List β)) (empty : g [] = pure [])
    (next : ∀ a as, g (a :: as) = do return (← f a) :: (← g as)) (as : List α) :
    g as = as.mapM f := by
  induction as with
  | nil => exact empty
  | cons a as ih => rw [next, ih, List.mapM_cons]

theorem mapM_cons_fst (a : α) :
    ((a :: as).mapM f k).1 = (f a k).1 :: (as.mapM f (f a k).2).1 := by
  rw [List.mapM_cons]
  rfl

@[simp] theorem length_mapM : (as.mapM f k).1.length = as.length := by
  induction as generalizing k with
  | nil => rfl
  | cons a as ih => rw [mapM_cons_fst, List.length_cons, ih, List.length_cons]

@[simp] theorem head?_mapM : (as.mapM f k).1.head? = as.head?.map fun a => (f a k).1 := by
  cases as with
  | nil => rfl
  | cons a as => rw [mapM_cons_fst]; rfl

@[simp] theorem mapM_eq_nil : (as.mapM f k).1 = [] ↔ as = [] := by
  rw [← List.length_eq_zero_iff, length_mapM, List.length_eq_zero_iff]

theorem forall_mem_mapM {p : β → Prop} (each : ∀ a ∈ as, ∀ k, p (f a k).1) :
    ∀ b ∈ (as.mapM f k).1, p b := by
  induction as generalizing k with
  | nil => exact nofun
  | cons a as ih =>
    obtain ⟨first, others⟩ := List.forall_mem_cons.1 each
    rw [mapM_cons_fst]
    exact List.forall_mem_cons.2 ⟨first k, ih others⟩

end Numbering

theorem renumberExprs_eq (es : List Expr) : renumberExprs es = es.mapM Expr.renumber :=
  eq_mapM_of_cons renumberExprs rfl (fun _ _ => rfl) es

theorem renumberBranches_eq (bs : List Branch) :
    renumberBranches bs = bs.mapM Branch.renumber :=
  eq_mapM_of_cons renumberBranches rfl (fun _ _ => rfl) bs

theorem renumberOrderItems_eq (is : List OrderItem) :
    renumberOrderItems is = is.mapM OrderItem.renumber :=
  eq_mapM_of_cons renumberOrderItems rfl (fun _ _ => rfl) is

theorem renumberRows_eq (rows : List (List Expr)) :
    renumberRows rows = rows.mapM (List.mapM Expr.renumber) :=
  eq_mapM_of_cons renumberRows rfl (fun row rows => by rw [renumberRows, renumberExprs_eq]) rows

theorem renumberTables_eq (ts : List CommonTable) :
    renumberTables ts = ts.mapM CommonTable.renumber :=
  eq_mapM_of_cons renumberTables rfl (fun _ _ => rfl) ts

theorem renumberItems_eq (is : List SelectItem) :
    renumberItems is = is.mapM SelectItem.renumber :=
  eq_mapM_of_cons renumberItems rfl (fun _ _ => rfl) is

theorem renumberJoins_eq (js : List Join) : renumberJoins js = js.mapM Join.renumber :=
  eq_mapM_of_cons renumberJoins rfl (fun _ _ => rfl) js

theorem renumberWindowDefs_eq (ws : List WindowDef) :
    renumberWindowDefs ws = ws.mapM WindowDef.renumber :=
  eq_mapM_of_cons renumberWindowDefs rfl (fun _ _ => rfl) ws

/-! What may be missing. -/

section

variable (k : Nat)

@[simp] theorem renumberExpr?_fst (o : Option Expr) :
    (renumberExpr? o k).1 = o.map fun e => (e.renumber k).1 := by
  cases o <;> rfl

@[simp] theorem renumberValues?_fst (o : Option (List Expr)) :
    (renumberValues? o k).1 = o.map fun es => (es.mapM Expr.renumber k).1 := by
  cases o with
  | none => rfl
  | some es => rw [Option.map_some, ← renumberExprs_eq]; rfl

@[simp] theorem renumberOver?_fst (o : Option Over) :
    (renumberOver? o k).1 = o.map fun w => (w.renumber k).1 := by
  cases o <;> rfl

@[simp] theorem renumberOrder?_fst (o : Option (List OrderItem)) :
    (renumberOrder? o k).1 = o.map fun is => (is.mapM OrderItem.renumber k).1 := by
  cases o with
  | none => rfl
  | some is => rw [Option.map_some, ← renumberOrderItems_eq]; rfl

@[simp] theorem renumberFrame?_fst (o : Option Frame) :
    (renumberFrame? o k).1 = o.map fun f => (f.renumber k).1 := by
  cases o <;> rfl

@[simp] theorem renumberBound?_fst (o : Option Bound) :
    (renumberBound? o k).1 = o.map fun b => (b.renumber k).1 := by
  cases o <;> rfl

@[simp] theorem renumberWith?_fst (o : Option With) :
    (renumberWith? o k).1 = o.map fun w => (w.renumber k).1 := by
  cases o <;> rfl

@[simp] theorem renumberDistinct?_fst (o : Option Distinct) :
    (renumberDistinct? o k).1 = o.map fun d => (d.renumber k).1 := by
  cases o <;> rfl

@[simp] theorem renumberFrom?_fst (o : Option From) :
    (renumberFrom? o k).1 = o.map fun f => (f.renumber k).1 := by
  cases o <;> rfl

@[simp] theorem renumberCondition?_fst (o : Option JoinCondition) :
    (renumberCondition? o k).1 = o.map fun c => (c.renumber k).1 := by
  cases o <;> rfl

@[simp] theorem renumberWindows?_fst (o : Option (List WindowDef)) :
    (renumberWindows? o k).1 = o.map fun ws => (ws.mapM WindowDef.renumber k).1 := by
  cases o with
  | none => rfl
  | some ws => rw [Option.map_some, ← renumberWindowDefs_eq]; rfl

@[simp] theorem renumberLimit?_fst (o : Option Limit) :
    (renumberLimit? o k).1 = o.map fun l => (l.renumber k).1 := by
  cases o <;> rfl

@[simp] theorem renumberFetch?_fst (o : Option Fetch) :
    (renumberFetch? o k).1 = o.map fun f => (f.renumber k).1 := by
  cases o <;> rfl

end

end SqlQuery
