import SqlQuery.Writer.Node

/-!
The marks of a node, whatever it nests and whether its keywords are valid or not. What the writer
gives, if it gives anything, are these marks.
-/

namespace SqlQuery

@[simp] theorem spaced_nil : spaced [] = [] := rfl

@[simp] theorem spaced_singleton (part : List Mark) : spaced [part] = part := by
  simp [spaced, List.intercalate]

theorem spaced_cons_cons (part next : List Mark) (parts : List (List Mark)) :
    spaced (part :: next :: parts) = part ++ .blank :: spaced (next :: parts) := by
  simp [spaced, List.intercalate]

@[simp] theorem commaSeparated_nil : commaSeparated [] = [] := rfl

@[simp] theorem commaSeparated_singleton (part : List Mark) : commaSeparated [part] = part := by
  simp [commaSeparated, List.intercalate]

theorem commaSeparated_cons_cons (part next : List Mark) (parts : List (List Mark)) :
    commaSeparated (part :: next :: parts) =
      part ++ .plain "," :: .blank :: commaSeparated (next :: parts) := by
  simp [commaSeparated, List.intercalate]

theorem qualify_cons (name : String) (namespaces : List String) (m : Mark) :
    qualify (name :: namespaces) m = .name name :: .plain "." :: qualify namespaces m := by
  cases namespaces <;> simp [qualify, List.intercalate]

/-- The mark of a keyword, operator or bare name. -/
def rawMark (text : String) : Mark := .plain (Text.trim text)

def optionalWord (present : Bool) (word : String) : List (List Mark) :=
  if present then [[.plain word]] else []

def materializedMarks : Option Bool → List (List Mark)
  | none => []
  | some true => [[.plain "materialized"]]
  | some false => [[.plain "not materialized"]]

/-- The marks of clauses, without those that have none. -/
def clauseMarks (parts : List (List Mark)) : List Mark :=
  spaced (parts.filter fun part => !part.isEmpty)

def castMarks (isPrimary : Bool) (input type : List Mark) : List Mark :=
  if isPrimary then input ++ .plain "::" :: type
  else .plain "cast" :: inParens (spaced [input, [.plain "as"], type])

def betweenWord (negated : Bool) : String := if negated then "not between" else "between"

def lockMarks : Option LockMode → List Mark
  | none => []
  | some mode => writeWords ("for" :: mode.words)

section

variable (d : Dialect)

def unaryMarks (operator : String) (operand : List Mark) : List Mark :=
  let text := Text.trim operator
  let isWord := text.toList.head?.any Char.isAlpha
  let signed := (Mark.spellAll d operand).head?.any fun c => c == '-' || c == '+'
  if isWord || signed then .plain text :: .blank :: operand else .plain text :: operand

def specifiedMarks (specifier : String) (value : Literal) : List Mark :=
  let text := Text.trim specifier
  if tightSpecifiers.contains (Text.lower text) then [.specified text value]
  else [.plain text, .blank, .literal value]

theorem tightSpecifiers_plain : ∀ specifier ∈ tightSpecifiers,
    Text.trim specifier = specifier ∧ Text.lower specifier = specifier := by
  decide

mutual

def Expr.marks : Expr → List Mark
  | .literal value => [.literal value]
  | .raw text => [rawMark text]
  | .column ref => ref.marks
  | .function call => call.marks
  | .unary operator operand => unaryMarks d operator operand.marks
  | .binary left operator right => spaced [left.marks, [rawMark operator], right.marks]
  | .parameter name => [.parameter name]
  | .array (.inlineQuery query) => .plain "array" :: inParens query.marks
  | .array content => .plain "array" :: .plain "[" :: content.marks ++ [Mark.plain "]"]
  | .tuple values => inParens (commaSeparated (exprsMarks values))
  | .list values => commaSeparated (exprsMarks values)
  | .case none switch => spaced [[.plain "case"], switch.marks, [.plain "end"]]
  | .case (some subject) switch =>
    spaced [[.plain "case"], subject.marks, switch.marks, [.plain "end"]]
  | .cast input type => castMarks input.isPrimary input.marks type.marks
  | .paren inner => inParens inner.marks
  | .between operand lower upper negated =>
    spaced [operand.marks, [.plain (betweenWord negated)], lower.marks, [.plain "and"], upper.marks]
  | .type type => type.marks
  | .specifiedString specifier value => specifiedMarks specifier value
  | .inlineQuery query => inParens query.marks

def exprsMarks : List Expr → List (List Mark)
  | [] => []
  | e :: es => e.marks :: exprsMarks es

def FunctionCall.marks : FunctionCall → List Mark
  | ⟨namespaces, name, argument, window⟩ =>
    qualify namespaces (.call (Text.trim name)) ++ inParens (argumentMarks argument) ++
      windowMarks window

def argumentMarks : Option Expr → List Mark
  | none => []
  | some (.inlineQuery query) => query.marks
  | some argument => argument.marks

def windowMarks : Option Over → List Mark
  | none => []
  | some window => .blank :: window.marks

def TypeRef.marks : TypeRef → List Mark
  | ⟨name, none⟩ => [rawMark name]
  | ⟨name, some argument⟩ => rawMark name :: inParens argument.marks

def Switch.marks : Switch → List Mark
  | ⟨branches, none⟩ => spaced (branchesMarks branches)
  | ⟨branches, some otherwise⟩ =>
    spaced [spaced (branchesMarks branches), [.plain "else"], otherwise.marks]

def branchesMarks : List Branch → List (List Mark)
  | [] => []
  | b :: bs => b.marks :: branchesMarks bs

def Branch.marks : Branch → List Mark
  | ⟨key, value⟩ => spaced [[.plain "when"], key.marks, [.plain "then"], value.marks]

def Over.marks : Over → List Mark
  | .named name => spaced [[.plain "over"], [.name name]]
  | .window spec => .plain "over" :: inParens spec.marks

def WindowSpec.marks : WindowSpec → List Mark
  | ⟨partition, order, frame⟩ =>
    clauseMarks [valuesMarks "partition by" partition, orderMarks order, frameMarks frame]

def valuesMarks (keyword : String) : Option (List Expr) → List Mark
  | none => []
  | some values => spaced [[.plain keyword], commaSeparated (exprsMarks values)]

def orderMarks : Option (List OrderItem) → List Mark
  | none => []
  | some items => spaced [[.plain "order by"], commaSeparated (orderItemsMarks items)]

def orderItemsMarks : List OrderItem → List (List Mark)
  | [] => []
  | i :: is => i.marks :: orderItemsMarks is

def OrderItem.marks : OrderItem → List Mark
  | ⟨value, direction, nulls⟩ =>
    spaced ([value.marks] ++ direction.marks ++ NullsPosition.marks nulls)

def frameMarks : Option Frame → List Mark
  | none => []
  | some frame => frame.marks

def Frame.marks : Frame → List Mark
  | ⟨unit, start, none⟩ => spaced [[.plain unit.text], start.marks]
  | ⟨unit, start, some stop⟩ =>
    spaced [[.plain unit.text], [.plain "between"], start.marks, [.plain "and"], stop.marks]

def Bound.marks : Bound → List Mark
  | .unboundedPreceding => writeWords ["unbounded", "preceding"]
  | .unboundedFollowing => writeWords ["unbounded", "following"]
  | .currentRow => writeWords ["current", "row"]
  | .preceding offset => spaced [offset.marks, [.plain "preceding"]]
  | .following offset => spaced [offset.marks, [.plain "following"]]

def Query.marks : Query → List Mark
  | .simple select => select.marks
  | .binary left operator right => spaced [left.marks, [rawMark operator], right.marks]
  | .values rows => spaced [[.plain "values"], commaSeparated (rowsMarks rows)]

def rowsMarks : List (List Expr) → List (List Mark)
  | [] => []
  | row :: rows => inParens (commaSeparated (exprsMarks row)) :: rowsMarks rows

def Select.marks : Select → List Mark
  | ⟨commonTables, clause, source, condition, groupBy, having, windows, orderBy, limit, fetch,
      lock⟩ =>
    clauseMarks
      [withMarks commonTables, clause.marks, fromMarks source, keywordedMarks "where" condition,
       valuesMarks "group by" groupBy, keywordedMarks "having" having, windowsMarks windows,
       orderMarks orderBy, limitMarks limit, fetchMarks fetch, lockMarks lock]

def keywordedMarks (keyword : String) : Option Expr → List Mark
  | none => []
  | some e => spaced [[.plain keyword], e.marks]

def withMarks : Option With → List Mark
  | none => []
  | some w => w.marks

def With.marks : With → List Mark
  | ⟨recursive, tables⟩ =>
    spaced ([[.plain "with"]] ++ optionalWord recursive "recursive" ++
      [commaSeparated (tablesMarks tables)])

def tablesMarks : List CommonTable → List (List Mark)
  | [] => []
  | t :: ts => t.marks :: tablesMarks ts

def CommonTable.marks : CommonTable → List Mark
  | ⟨header, materialized, query⟩ =>
    spaced ([header.marks, [.plain "as"]] ++ materializedMarks materialized ++
      [inParens query.marks])

def SelectClause.marks : SelectClause → List Mark
  | ⟨none, items⟩ => spaced [[.plain "select"], commaSeparated (itemsMarks items)]
  | ⟨some distinct, items⟩ =>
    spaced [[.plain "select"], distinct.marks, commaSeparated (itemsMarks items)]

def Distinct.marks : Distinct → List Mark
  | .rows => [.plain "distinct"]
  | .on values => spaced [[.plain "distinct on"], inParens (commaSeparated (exprsMarks values))]

def itemsMarks : List SelectItem → List (List Mark)
  | [] => []
  | i :: is => i.marks :: itemsMarks is

def SelectItem.marks : SelectItem → List Mark
  | ⟨value, aliasName⟩ =>
    match SelectItem.effectiveAlias ⟨value, aliasName⟩ with
    | none => value.marks
    | some name => spaced [value.marks, [.plain "as"], [.name name]]

def fromMarks : Option From → List Mark
  | none => []
  | some f => f.marks

def From.marks : From → List Mark
  | ⟨source, joins⟩ => spaced ([.plain "from"] :: source.marks :: joinsMarks joins)

def joinsMarks : List Join → List (List Mark)
  | [] => []
  | j :: js => j.marks :: joinsMarks js

def Join.marks : Join → List Mark
  | ⟨kind, lateral, source, none⟩ =>
    spaced ([[rawMark kind]] ++ optionalWord lateral "lateral" ++ [source.marks])
  | ⟨kind, lateral, source, some condition⟩ =>
    spaced ([[rawMark kind]] ++ optionalWord lateral "lateral" ++ [source.marks, condition.marks])

def JoinCondition.marks : JoinCondition → List Mark
  | .on condition => spaced [[.plain "on"], condition.marks]
  | .columns names => spaced [[.plain "using"], inParens (writeNames names)]

def Source.marks : Source → List Mark
  | ⟨data, sourceAlias⟩ =>
    match Source.effectiveAlias ⟨data, sourceAlias⟩ with
    | none => data.marks
    | some a => spaced [data.marks, [.plain "as"], a.marks]

def DataSource.marks : DataSource → List Mark
  | .table ref => ref.marks
  | .subQuery query => inParens query.marks
  | .function call => call.marks

def windowsMarks : Option (List WindowDef) → List Mark
  | none => []
  | some ws => spaced [[.plain "window"], commaSeparated (windowDefsMarks ws)]

def windowDefsMarks : List WindowDef → List (List Mark)
  | [] => []
  | w :: ws => w.marks :: windowDefsMarks ws

def WindowDef.marks : WindowDef → List Mark
  | ⟨name, spec⟩ => spaced [[.name name], [.plain "as"], inParens spec.marks]

def limitMarks : Option Limit → List Mark
  | none => []
  | some l => l.marks

def Limit.marks : Limit → List Mark
  | ⟨limit, offset⟩ => clauseMarks [keywordedMarks "limit" limit, keywordedMarks "offset" offset]

def fetchMarks : Option Fetch → List Mark
  | none => []
  | some f => f.marks

def Fetch.marks : Fetch → List Mark
  | ⟨position, none, unit⟩ =>
    spaced [[.plain "fetch"], [.plain position.text], writeWords unit.words]
  | ⟨position, some count, unit⟩ =>
    spaced [[.plain "fetch"], [.plain position.text], count.marks, writeWords unit.words]

end

theorem exprsMarks_eq (es : List Expr) : exprsMarks d es = es.map (Expr.marks d) := by
  induction es with
  | nil => rfl
  | cons e es ih => rw [exprsMarks, ih, List.map_cons]

theorem branchesMarks_eq (bs : List Branch) : branchesMarks d bs = bs.map (Branch.marks d) := by
  induction bs with
  | nil => rfl
  | cons b bs ih => rw [branchesMarks, ih, List.map_cons]

theorem orderItemsMarks_eq (is : List OrderItem) : orderItemsMarks d is = is.map (OrderItem.marks d) := by
  induction is with
  | nil => rfl
  | cons i is ih => rw [orderItemsMarks, ih, List.map_cons]

theorem tablesMarks_eq (ts : List CommonTable) : tablesMarks d ts = ts.map (CommonTable.marks d) := by
  induction ts with
  | nil => rfl
  | cons t ts ih => rw [tablesMarks, ih, List.map_cons]

theorem itemsMarks_eq (is : List SelectItem) : itemsMarks d is = is.map (SelectItem.marks d) := by
  induction is with
  | nil => rfl
  | cons i is ih => rw [itemsMarks, ih, List.map_cons]

theorem joinsMarks_eq (js : List Join) : joinsMarks d js = js.map (Join.marks d) := by
  induction js with
  | nil => rfl
  | cons j js ih => rw [joinsMarks, ih, List.map_cons]

theorem windowDefsMarks_eq (ws : List WindowDef) : windowDefsMarks d ws = ws.map (WindowDef.marks d) := by
  induction ws with
  | nil => rfl
  | cons w ws ih => rw [windowDefsMarks, ih, List.map_cons]

theorem rowsMarks_eq (rows : List (List Expr)) :
    rowsMarks d rows = rows.map fun row => (Expr.tuple row).marks d := by
  induction rows with
  | nil => rfl
  | cons row rows ih => rw [rowsMarks, ih, List.map_cons, Expr.marks]

def Node.marks : Node → List Mark
  | .expr e => e.marks d
  | .query q => q.marks d
  | .identifier name => [.name name]
  | .switch s => s.marks d
  | .branch b => b.marks d
  | .select c => c.marks d
  | .selectItem i => i.marks d
  | .distinct x => x.marks d
  | .fromClause f => f.marks d
  | .join j => j.marks d
  | .source s => s.marks d
  | .table ref => ref.marks
  | .sourceAlias a => a.marks
  | .filter condition => keywordedMarks d "where" (some condition)
  | .groupBy items => valuesMarks d "group by" (some items)
  | .having condition => keywordedMarks d "having" (some condition)
  | .orderBy items => orderMarks d (some items)
  | .orderItem i => i.marks d
  | .partitionBy values => valuesMarks d "partition by" (some values)
  | .overClause o => o.marks d
  | .windowSpec w => w.marks d
  | .frame f => f.marks d
  | .windowDef w => w.marks d
  | .windows ws => windowsMarks d (some ws)
  | .commonTables w => w.marks d
  | .commonTable t => t.marks d
  | .limit l => l.marks d
  | .fetch f => f.marks d
  | .lock mode => lockMarks (some mode)

end

end SqlQuery
