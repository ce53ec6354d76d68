import SqlQuery.Proofs.Tree.Number
import SqlQuery.Proofs.Written.Marks

/-!
What is written of a tree with numbered parameters are its marks with numbered parameters.
-/

namespace SqlQuery

variable {d : Dialect} {k : Nat}

namespace Mark

/-- The mark with a number for a name, if it is a parameter. -/
def renumber : Mark → StateM Nat Mark
  | .parameter _ => return .parameter (← nextOrdinal)
  | m => return m

def renumberAll (ms : List Mark) : StateM Nat (List Mark) := ms.mapM renumber

def renumberParts (parts : List (List Mark)) : StateM Nat (List (List Mark)) := parts.mapM renumberAll

variable {m : Mark} {ms more : List Mark} {part : List Mark} {parts others : List (List Mark)}

@[simp] theorem renumberAll_nil : renumberAll [] = pure [] := rfl

@[simp] theorem renumberAll_cons :
    renumberAll (m :: ms) = do return (← m.renumber) :: (← renumberAll ms) :=
  List.mapM_cons

theorem renumberAll_cons_fst (m : Mark) (ms : List Mark) (k : Nat) :
    (renumberAll (m :: ms) k).1 = (m.renumber k).1 :: (renumberAll ms (m.renumber k).2).1 :=
  mapM_cons_fst m

@[simp] theorem renumberAll_append :
    renumberAll (ms ++ more) = do return (← renumberAll ms) ++ (← renumberAll more) :=
  List.mapM_append

@[simp] theorem renumberParts_nil : renumberParts [] = pure [] := rfl

@[simp] theorem renumberParts_cons :
    renumberParts (part :: parts) = do return (← renumberAll part) :: (← renumberParts parts) :=
  List.mapM_cons

@[simp] theorem renumberParts_append :
    renumberParts (parts ++ others) =
      do return (← renumberParts parts) ++ (← renumberParts others) :=
  List.mapM_append

@[simp] theorem renumber_blank : renumber .blank = pure .blank := rfl

@[simp] theorem renumber_plain (text : String) : renumber (.plain text) = pure (.plain text) := rfl

@[simp] theorem renumber_name (text : String) : renumber (.name text) = pure (.name text) := rfl

@[simp] theorem renumber_call (text : String) : renumber (.call text) = pure (.call text) := rfl

@[simp] theorem renumberAll_spaced :
    renumberAll (spaced parts) = spaced <$> renumberParts parts := by
  induction parts with
  | nil => rfl
  | cons part parts ih =>
    cases parts with
    | nil => simp
    | cons next parts =>
      rw [spaced_cons_cons, renumberAll_append, renumberAll_cons, ih]
      simp [spaced_cons_cons]

@[simp] theorem renumberAll_commaSeparated :
    renumberAll (commaSeparated parts) = commaSeparated <$> renumberParts parts := by
  induction parts with
  | nil => rfl
  | cons part parts ih =>
    cases parts with
    | nil => simp
    | cons next parts =>
      rw [commaSeparated_cons_cons, renumberAll_append, renumberAll_cons, renumberAll_cons, ih]
      simp [commaSeparated_cons_cons]

@[simp] theorem renumberAll_inParens : renumberAll (inParens ms) = inParens <$> renumberAll ms := by
  simp [inParens]
  rfl

/-- A part is left out in both or in neither. -/
@[simp] theorem renumberAll_clauseMarks :
    renumberAll (clauseMarks parts) = clauseMarks <$> renumberParts parts := by
  have kept : renumberParts (parts.filter fun part => !part.isEmpty) =
      List.filter (fun part => !part.isEmpty) <$> renumberParts parts := by
    induction parts with
    | nil => rfl
    | cons part parts ih => cases part <;> simp [ih]
  rw [clauseMarks, renumberAll_spaced, kept]
  simp
  rfl

/-- Names in front of a name. -/
theorem renumberAll_qualify (namespaces : List String) (fixed : renumber m = pure m) :
    renumberAll (qualify namespaces m) = pure (qualify namespaces m) := by
  induction namespaces with
  | nil => simp [qualify, List.intercalate, fixed]
  | cons name namespaces ih => simp [qualify_cons, ih]

theorem renumberParts_words (words : List String) :
    renumberParts (words.map fun word => [.plain word]) = pure (words.map fun word => [.plain word]) := by
  induction words with
  | nil => rfl
  | cons word words ih => simp [ih]

@[simp] theorem renumberAll_writeWords (words : List String) :
    renumberAll (writeWords words) = pure (writeWords words) := by
  simp [writeWords, renumberParts_words]

@[simp] theorem renumberAll_writeNames (names : List String) :
    renumberAll (writeNames names) = pure (writeNames names) := by
  have fixed : renumberParts (names.map fun name => [.name name]) =
      pure (names.map fun name => [.name name]) := by
    induction names with
    | nil => rfl
    | cons name names ih => simp [ih]
  simp [writeNames, fixed]

@[simp] theorem renumber_rawMark (text : String) : (rawMark text).renumber = pure (rawMark text) := rfl

/-- Where parameters have no names, they are all spelled alike. -/
theorem spellAll_renumberAll (anonymous : d.parameterStyle = .anonymous) (ms : List Mark) (k : Nat) :
    spellAll d (renumberAll ms k).1 = spellAll d ms := by
  induction ms generalizing k with
  | nil => rfl
  | cons m ms ih =>
    have own : (m.renumber k).1.spell d = m.spell d := by
      cases m with
      | parameter name =>
        have mark (name : String) : (Mark.parameter name).spell d = ['?'] := by
          simp [Mark.spell, Dialect.spellParameter, anonymous]
        exact (mark _).trans (mark name).symm
      | _ => rfl
    have later := ih (m.renumber k).2
    rw [spellAll] at later ⊢
    rw [renumberAll_cons_fst, List.flatMap_cons, own, later]
    rfl

theorem renumberAll_unaryMarks (anonymous : d.parameterStyle = .anonymous) (operator : String)
    (operand : List Mark) :
    renumberAll (unaryMarks d operator operand) = unaryMarks d operator <$> renumberAll operand := by
  funext k
  have spelled := spellAll_renumberAll anonymous operand k
  have unfolded : (unaryMarks d operator <$> renumberAll operand) k =
      (unaryMarks d operator (renumberAll operand k).1, (renumberAll operand k).2) := rfl
  rw [unfolded]
  simp only [unaryMarks, spelled]
  split <;> simp

theorem renumberAll_specifiedMarks (specifier : String) (value : Literal) :
    renumberAll (specifiedMarks specifier value) = pure (specifiedMarks specifier value) := by
  unfold specifiedMarks
  dsimp only
  split <;> simp [renumber]

@[simp] theorem renumberAll_sourceAlias (a : SourceAlias) : renumberAll a.marks = pure a.marks := by
  unfold SourceAlias.marks
  split <;> simp

@[simp] theorem renumberParts_direction (direction : SortDirection) :
    renumberParts direction.marks = pure direction.marks := by
  cases direction <;> rfl

@[simp] theorem renumberParts_nulls (nulls : Option NullsPosition) :
    renumberParts (NullsPosition.marks nulls) = pure (NullsPosition.marks nulls) := by
  cases nulls <;> rfl

@[simp] theorem renumberParts_materialized (materialized : Option Bool) :
    renumberParts (materializedMarks materialized) = pure (materializedMarks materialized) := by
  obtain _ | _ | _ := materialized <;> rfl

@[simp] theorem renumberParts_optionalWord (present : Bool) (word : String) :
    renumberParts (optionalWord present word) = pure (optionalWord present word) := by
  cases present <;> rfl

end Mark

open Mark (renumberAll renumberParts renumberAll_qualify renumberAll_unaryMarks
  renumberAll_specifiedMarks)

@[simp] theorem Expr.isPrimary_renumber (e : Expr) (k : Nat) :
    (e.renumber k).1.isPrimary = e.isPrimary := by
  cases e <;> rfl

/-- The tests for an alias look at the names of columns and tables, which are not numbered. -/
theorem SelectItem.effectiveAlias_renumber (value : Expr) (aliasName : Option String) (k : Nat) :
    effectiveAlias ⟨(value.renumber k).1, aliasName⟩ = effectiveAlias ⟨value, aliasName⟩ := by
  cases value <;> rfl

theorem Source.effectiveAlias_renumber (data : DataSource) (a : Option SourceAlias) (k : Nat) :
    effectiveAlias ⟨(data.renumber k).1, a⟩ = effectiveAlias ⟨data, a⟩ := by
  cases data <;> rfl

namespace Marks

/-! Where what is written depends on what a part is, which numbering does not change. -/

theorem cast_renumber (input : Expr) (type : TypeRef) :
    Expr.marks d <$> (Expr.cast input type).renumber = do
      return castMarks input.isPrimary (← Expr.marks d <$> input.renumber)
        (← TypeRef.marks d <$> type.renumber) := by
  funext k
  exact congrArg (fun primary => (castMarks primary _ _, _)) (input.isPrimary_renumber k)

theorem array_renumber (content : Expr)
    (own : renumberAll (content.marks d) = Expr.marks d <$> content.renumber) :
    renumberAll ((Expr.array content).marks d) = Expr.marks d <$> (Expr.array content).renumber := by
  cases content with
  | inlineQuery query =>
    have whole (q : Query) : (Expr.array (.inlineQuery q)).marks d =
        .plain "array" :: (Expr.inlineQuery q).marks d := by
      simp only [Expr.marks]
    rw [whole, Mark.renumberAll_cons, own]
    simp [Expr.renumber, whole]
  | _ =>
    rw [Expr.marks, List.cons_append, List.cons_append, Mark.renumberAll_cons, Mark.renumberAll_cons,
      Mark.renumberAll_append, own]
    · rfl
    · simp

theorem argument_renumber (argument : Expr) (other : ∀ query, argument ≠ .inlineQuery query)
    (own : renumberAll (argument.marks d) = Expr.marks d <$> argument.renumber) :
    renumberAll (argumentMarks d (some argument)) =
      argumentMarks d <$> renumberExpr? (some argument) := by
  cases argument with
  | inlineQuery query => exact absurd rfl (other query)
  | _ => exact own

theorem selectItem_renumber (value : Expr) (aliasName : Option String) :
    SelectItem.marks d <$> (SelectItem.mk value aliasName).renumber = do
      let named ← Expr.marks d <$> value.renumber
      match SelectItem.effectiveAlias ⟨value, aliasName⟩ with
      | none => return named
      | some text => return spaced [named, [.plain "as"], [.name text]] := by
  funext k
  have shown : (SelectItem.marks d <$> (SelectItem.mk value aliasName).renumber) k =
      (SelectItem.marks d ⟨(value.renumber k).1, aliasName⟩, (value.renumber k).2) := rfl
  rw [shown, SelectItem.marks, SelectItem.effectiveAlias_renumber]
  cases SelectItem.effectiveAlias ⟨value, aliasName⟩ <;> rfl

theorem source_renumber (data : DataSource) (sourceAlias : Option SourceAlias) :
    Source.marks d <$> (Source.mk data sourceAlias).renumber = do
      let named ← DataSource.marks d <$> data.renumber
      match Source.effectiveAlias ⟨data, sourceAlias⟩ with
      | none => return named
      | some a => return spaced [named, [.plain "as"], a.marks] := by
  funext k
  have shown : (Source.marks d <$> (Source.mk data sourceAlias).renumber) k =
      (Source.marks d ⟨(data.renumber k).1, sourceAlias⟩, (data.renumber k).2) := rfl
  rw [shown, Source.marks, Source.effectiveAlias_renumber]
  cases Source.effectiveAlias ⟨data, sourceAlias⟩ <;> rfl

end Marks

mutual

/-- Numbering the parameters of a value numbers them in what is written of it. -/
theorem Expr.marks_renumber (anonymous : d.parameterStyle = .anonymous) :
    (e : Expr) → renumberAll (e.marks d) = Expr.marks d <$> e.renumber
  | .literal value => by simp [Expr.marks, Expr.renumber, Mark.renumber]
  | .raw text => by simp [Expr.marks, Expr.renumber]
  | .column ref => by
    rw [Expr.marks, ColumnRef.marks, renumberAll_qualify _ rfl, Expr.renumber, map_pure, Expr.marks,
      ColumnRef.marks]
  | .function f => by simp [Expr.marks, Expr.renumber, f.marks_renumber anonymous]
  | .unary operator operand => by
    simp [Expr.marks, Expr.renumber, renumberAll_unaryMarks anonymous,
      operand.marks_renumber anonymous]
  | .binary left operator right => by
    simp [Expr.marks, Expr.renumber, left.marks_renumber anonymous, right.marks_renumber anonymous]
  | .parameter _ => by simp [Expr.marks, Expr.renumber, Mark.renumber]
  | .array content => Marks.array_renumber content (content.marks_renumber anonymous)
  | .tuple values => by simp [Expr.marks, Expr.renumber, exprsMarks_renumber anonymous values]
  | .list values => by simp [Expr.marks, Expr.renumber, exprsMarks_renumber anonymous values]
  | .case none switch => by
    simp [Expr.marks, Expr.renumber, renumberExpr?, switch.marks_renumber anonymous]
  | .case (some subject) switch => by
    simp [Expr.marks, Expr.renumber, renumberExpr?, subject.marks_renumber anonymous,
      switch.marks_renumber anonymous]
  | .cast input type => by
    rw [Expr.marks, Marks.cast_renumber, ← input.marks_renumber anonymous,
      ← type.marks_renumber anonymous]
    cases input.isPrimary <;> simp [castMarks]
  | .paren inner => by simp [Expr.marks, Expr.renumber, inner.marks_renumber anonymous]
  | .between operand lower upper negated => by
    simp [Expr.marks, Expr.renumber, operand.marks_renumber anonymous,
      lower.marks_renumber anonymous, upper.marks_renumber anonymous]
  | .type type => by simp [Expr.marks, Expr.renumber, type.marks_renumber anonymous]
  | .specifiedString specifier value => by
    simp [Expr.marks, Expr.renumber, renumberAll_specifiedMarks]
  | .inlineQuery query => by simp [Expr.marks, Expr.renumber, query.marks_renumber anonymous]

theorem exprsMarks_renumber (anonymous : d.parameterStyle = .anonymous) :
    (es : List Expr) → renumberParts (exprsMarks d es) = exprsMarks d <$> renumberExprs es
  | [] => by simp [exprsMarks, renumberExprs]
  | e :: es => by
    simp [exprsMarks, renumberExprs, e.marks_renumber anonymous, exprsMarks_renumber anonymous es]

theorem FunctionCall.marks_renumber (anonymous : d.parameterStyle = .anonymous) :
    (call : FunctionCall) → renumberAll (call.marks d) = FunctionCall.marks d <$> call.renumber
  | ⟨namespaces, text, argument, window⟩ => by
    have named := renumberAll_qualify namespaces (Mark.renumber_call (Text.trim text))
    simp [FunctionCall.marks, FunctionCall.renumber, argumentMarks_renumber anonymous argument,
      windowMarks_renumber anonymous window, named]

theorem argumentMarks_renumber (anonymous : d.parameterStyle = .anonymous) :
    (argument : Option Expr) →
      renumberAll (argumentMarks d argument) = argumentMarks d <$> renumberExpr? argument
  | none => by simp [argumentMarks, renumberExpr?]
  | some e => by
    cases e with
    | inlineQuery query => simp [argumentMarks, renumberExpr?, Expr.renumber, query.marks_renumber anonymous]
    | _ => exact Marks.argument_renumber _ (by simp) (Expr.marks_renumber anonymous _)

theorem windowMarks_renumber (anonymous : d.parameterStyle = .anonymous) :
    (window : Option Over) →
      renumberAll (windowMarks d window) = windowMarks d <$> renumberOver? window
  | none => by simp [windowMarks, renumberOver?]
  | some window => by simp [windowMarks, renumberOver?, window.marks_renumber anonymous]

theorem TypeRef.marks_renumber (anonymous : d.parameterStyle = .anonymous) :
    (ref : TypeRef) → renumberAll (ref.marks d) = TypeRef.marks d <$> ref.renumber
  | ⟨text, none⟩ => by simp [TypeRef.marks, TypeRef.renumber, renumberExpr?]
  | ⟨text, some argument⟩ => by
    simp [TypeRef.marks, TypeRef.renumber, renumberExpr?, argument.marks_renumber anonymous]

theorem Switch.marks_renumber (anonymous : d.parameterStyle = .anonymous) :
    (s : Switch) → renumberAll (s.marks d) = Switch.marks d <$> s.renumber
  | ⟨branches, none⟩ => by
    simp [Switch.marks, Switch.renumber, renumberExpr?, branchesMarks_renumber anonymous branches]
  | ⟨branches, some otherwise⟩ => by
    simp [Switch.marks, Switch.renumber, renumberExpr?, branchesMarks_renumber anonymous branches,
      otherwise.marks_renumber anonymous]

theorem branchesMarks_renumber (anonymous : d.parameterStyle = .anonymous) :
    (bs : List Branch) → renumberParts (branchesMarks d bs) = branchesMarks d <$> renumberBranches bs
  | [] => by simp [branchesMarks, renumberBranches]
  | b :: bs => by
    simp [branchesMarks, renumberBranches, b.marks_renumber anonymous,
      branchesMarks_renumber anonymous bs]

theorem Branch.marks_renumber (anonymous : d.parameterStyle = .anonymous) :
    (b : Branch) → renumberAll (b.marks d) = Branch.marks d <$> b.renumber
  | ⟨key, value⟩ => by
    simp [Branch.marks, Branch.renumber, key.marks_renumber anonymous,
      value.marks_renumber anonymous]

theorem Over.marks_renumber (anonymous : d.parameterStyle = .anonymous) :
    (o : Over) → renumberAll (o.marks d) = Over.marks d <$> o.renumber
  | .named text => by simp [Over.marks, Over.renumber]
  | .window spec => by simp [Over.marks, Over.renumber, spec.marks_renumber anonymous]

theorem WindowSpec.marks_renumber (anonymous : d.parameterStyle = .anonymous) :
    (w : WindowSpec) → renumberAll (w.marks d) = WindowSpec.marks d <$> w.renumber
  | ⟨partition, order, frame⟩ => by
    simp [WindowSpec.marks, WindowSpec.renumber, valuesMarks_renumber anonymous _ partition,
      orderMarks_renumber anonymous order, frameMarks_renumber anonymous frame]

theorem valuesMarks_renumber (anonymous : d.parameterStyle = .anonymous) (keyword : String) :
    (o : Option (List Expr)) →
      renumberAll (valuesMarks d keyword o) = valuesMarks d keyword <$> renumberValues? o
  | none => by simp [valuesMarks, renumberValues?]
  | some es => by simp [valuesMarks, renumberValues?, exprsMarks_renumber anonymous es]

theorem orderMarks_renumber (anonymous : d.parameterStyle = .anonymous) :
    (o : Option (List OrderItem)) → renumberAll (orderMarks d o) = orderMarks d <$> renumberOrder? o
  | none => by simp [orderMarks, renumberOrder?]
  | some items => by simp [orderMarks, renumberOrder?, orderItemsMarks_renumber anonymous items]

theorem orderItemsMarks_renumber (anonymous : d.parameterStyle = .anonymous) :
    (is : List OrderItem) →
      renumberParts (orderItemsMarks d is) = orderItemsMarks d <$> renumberOrderItems is
  | [] => by simp [orderItemsMarks, renumberOrderItems]
  | i :: is => by
    simp [orderItemsMarks, renumberOrderItems, i.marks_renumber anonymous,
      orderItemsMarks_renumber anonymous is]

theorem OrderItem.marks_renumber (anonymous : d.parameterStyle = .anonymous) :
    (i : OrderItem) → renumberAll (i.marks d) = OrderItem.marks d <$> i.renumber
  | ⟨value, direction, nulls⟩ => by
    simp [OrderItem.marks, OrderItem.renumber, value.marks_renumber anonymous]

theorem frameMarks_renumber (anonymous : d.parameterStyle = .anonymous) :
    (o : Option Frame) → renumberAll (frameMarks d o) = frameMarks d <$> renumberFrame? o
  | none => by simp [frameMarks, renumberFrame?]
  | some f => by simp [frameMarks, renumberFrame?, f.marks_renumber anonymous]

theorem Frame.marks_renumber (anonymous : d.parameterStyle = .anonymous) :
    (f : Frame) → renumberAll (f.marks d) = Frame.marks d <$> f.renumber
  | ⟨unit, start, none⟩ => by
    simp [Frame.marks, Frame.renumber, renumberBound?, start.marks_renumber anonymous]
  | ⟨unit, start, some stop⟩ => by
    simp [Frame.marks, Frame.renumber, renumberBound?, start.marks_renumber anonymous,
      stop.marks_renumber anonymous]

theorem Bound.marks_renumber (anonymous : d.parameterStyle = .anonymous) :
    (b : Bound) → renumberAll (b.marks d) = Bound.marks d <$> b.renumber
  | .unboundedPreceding => by simp [Bound.marks, Bound.renumber]
  | .unboundedFollowing => by simp [Bound.marks, Bound.renumber]
  | .currentRow => by simp [Bound.marks, Bound.renumber]
  | .preceding offset => by simp [Bound.marks, Bound.renumber, offset.marks_renumber anonymous]
  | .following offset => by simp [Bound.marks, Bound.renumber, offset.marks_renumber anonymous]

theorem Query.marks_renumber (anonymous : d.parameterStyle = .anonymous) :
    (q : Query) → renumberAll (q.marks d) = Query.marks d <$> q.renumber
  | .simple select => by simp [Query.marks, Query.renumber, select.marks_renumber anonymous]
  | .binary left operator right => by
    simp [Query.marks, Query.renumber, left.marks_renumber anonymous,
      right.marks_renumber anonymous]
  | .values rows => by simp [Query.marks, Query.renumber, rowsMarks_renumber anonymous rows]

theorem rowsMarks_renumber (anonymous : d.parameterStyle = .anonymous) :
    (rows : List (List Expr)) → renumberParts (rowsMarks d rows) = rowsMarks d <$> renumberRows rows
  | [] => by simp [rowsMarks, renumberRows]
  | row :: rows => by
    simp [rowsMarks, renumberRows, exprsMarks_renumber anonymous row,
      rowsMarks_renumber anonymous rows]

theorem Select.marks_renumber (anonymous : d.parameterStyle = .anonymous) :
    (s : Select) → renumberAll (s.marks d) = Select.marks d <$> s.renumber
  | ⟨commonTables, clause, source, condition, groupBy, having, windows, orderBy, limit, fetch,
      lock⟩ => by
    have locked : renumberAll (lockMarks lock) = pure (lockMarks lock) := by
      cases lock <;> simp [lockMarks]
    simp [Select.marks, Select.renumber, withMarks_renumber anonymous commonTables,
      clause.marks_renumber anonymous, fromMarks_renumber anonymous source,
      keywordedMarks_renumber anonymous _ condition, valuesMarks_renumber anonymous _ groupBy,
      keywordedMarks_renumber anonymous _ having, windowsMarks_renumber anonymous windows,
      orderMarks_renumber anonymous orderBy, limitMarks_renumber anonymous limit,
      fetchMarks_renumber anonymous fetch, locked]

theorem keywordedMarks_renumber (anonymous : d.parameterStyle = .anonymous) (keyword : String) :
    (o : Option Expr) →
      renumberAll (keywordedMarks d keyword o) = keywordedMarks d keyword <$> renumberExpr? o
  | none => by simp [keywordedMarks, renumberExpr?]
  | some e => by simp [keywordedMarks, renumberExpr?, e.marks_renumber anonymous]

theorem withMarks_renumber (anonymous : d.parameterStyle = .anonymous) :
    (o : Option With) → renumberAll (withMarks d o) = withMarks d <$> renumberWith? o
  | none => by simp [withMarks, renumberWith?]
  | some w => by simp [withMarks, renumberWith?, w.marks_renumber anonymous]

theorem With.marks_renumber (anonymous : d.parameterStyle = .anonymous) :
    (w : With) → renumberAll (w.marks d) = With.marks d <$> w.renumber
  | ⟨recursive, tables⟩ => by
    simp [With.marks, With.renumber, tablesMarks_renumber anonymous tables]

theorem tablesMarks_renumber (anonymous : d.parameterStyle = .anonymous) :
    (ts : List CommonTable) → renumberParts (tablesMarks d ts) = tablesMarks d <$> renumberTables ts
  | [] => by simp [tablesMarks, renumberTables]
  | t :: ts => by
    simp [tablesMarks, renumberTables, t.marks_renumber anonymous,
      tablesMarks_renumber anonymous ts]

theorem CommonTable.marks_renumber (anonymous : d.parameterStyle = .anonymous) :
    (t : CommonTable) → renumberAll (t.marks d) = CommonTable.marks d <$> t.renumber
  | ⟨header, materialized, query⟩ => by
    simp [CommonTable.marks, CommonTable.renumber, query.marks_renumber anonymous]

theorem SelectClause.marks_renumber (anonymous : d.parameterStyle = .anonymous) :
    (c : SelectClause) → renumberAll (c.marks d) = SelectClause.marks d <$> c.renumber
  | ⟨none, items⟩ => by
    simp [SelectClause.marks, SelectClause.renumber, renumberDistinct?,
      itemsMarks_renumber anonymous items]
  | ⟨some distinct, items⟩ => by
    simp [SelectClause.marks, SelectClause.renumber, renumberDistinct?,
      distinct.marks_renumber anonymous, itemsMarks_renumber anonymous items]

theorem Distinct.marks_renumber (anonymous : d.parameterStyle = .anonymous) :
    (x : Distinct) → renumberAll (x.marks d) = Distinct.marks d <$> x.renumber
  | .rows => by simp [Distinct.marks, Distinct.renumber]
  | .on values => by simp [Distinct.marks, Distinct.renumber, exprsMarks_renumber anonymous values]

theorem itemsMarks_renumber (anonymous : d.parameterStyle = .anonymous) :
    (is : List SelectItem) → renumberParts (itemsMarks d is) = itemsMarks d <$> renumberItems is
  | [] => by simp [itemsMarks, renumberItems]
  | i :: is => by
    simp [itemsMarks, renumberItems, i.marks_renumber anonymous, itemsMarks_renumber anonymous is]

theorem SelectItem.marks_renumber (anonymous : d.parameterStyle = .anonymous) :
    (i : SelectItem) → renumberAll (i.marks d) = SelectItem.marks d <$> i.renumber
  | ⟨value, aliasName⟩ => by
    rw [SelectItem.marks, Marks.selectItem_renumber, ← value.marks_renumber anonymous]
    cases SelectItem.effectiveAlias ⟨value, aliasName⟩ <;> simp

theorem fromMarks_renumber (anonymous : d.parameterStyle = .anonymous) :
    (o : Option From) → renumberAll (fromMarks d o) = fromMarks d <$> renumberFrom? o
  | none => by simp [fromMarks, renumberFrom?]
  | some f => by simp [fromMarks, renumberFrom?, f.marks_renumber anonymous]

theorem From.marks_renumber (anonymous : d.parameterStyle = .anonymous) :
    (f : From) → renumberAll (f.marks d) = From.marks d <$> f.renumber
  | ⟨source, joins⟩ => by
    simp [From.marks, From.renumber, source.marks_renumber anonymous,
      joinsMarks_renumber anonymous joins]

theorem joinsMarks_renumber (anonymous : d.parameterStyle = .anonymous) :
    (js : List Join) → renumberParts (joinsMarks d js) = joinsMarks d <$> renumberJoins js
  | [] => by simp [joinsMarks, renumberJoins]
  | j :: js => by
    simp [joinsMarks, renumberJoins, j.marks_renumber anonymous, joinsMarks_renumber anonymous js]

theorem Join.marks_renumber (anonymous : d.parameterStyle = .anonymous) :
    (j : Join) → renumberAll (j.marks d) = Join.marks d <$> j.renumber
  | ⟨kind, lateral, source, none⟩ => by
    simp [Join.marks, Join.renumber, renumberCondition?, source.marks_renumber anonymous]
  | ⟨kind, lateral, source, some condition⟩ => by
    simp [Join.marks, Join.renumber, renumberCondition?, source.marks_renumber anonymous,
      condition.marks_renumber anonymous]

theorem JoinCondition.marks_renumber (anonymous : d.parameterStyle = .anonymous) :
    (c : JoinCondition) → renumberAll (c.marks d) = JoinCondition.marks d <$> c.renumber
  | .on condition => by
    simp [JoinCondition.marks, JoinCondition.renumber, condition.marks_renumber anonymous]
  | .columns names => by simp [JoinCondition.marks, JoinCondition.renumber]

theorem Source.marks_renumber (anonymous : d.parameterStyle = .anonymous) :
    (s : Source) → renumberAll (s.marks d) = Source.marks d <$> s.renumber
  | ⟨data, sourceAlias⟩ => by
    rw [Source.marks, Marks.source_renumber, ← data.marks_renumber anonymous]
    cases Source.effectiveAlias ⟨data, sourceAlias⟩ <;> simp

theorem DataSource.marks_renumber (anonymous : d.parameterStyle = .anonymous) :
    (x : DataSource) → renumberAll (x.marks d) = DataSource.marks d <$> x.renumber
  | .table ref => by
    rw [DataSource.marks, TableRef.marks, renumberAll_qualify _ rfl, DataSource.renumber, map_pure,
      DataSource.marks, TableRef.marks]
  | .subQuery query => by
    simp [DataSource.marks, DataSource.renumber, query.marks_renumber anonymous]
  | .function f => by simp [DataSource.marks, DataSource.renumber, f.marks_renumber anonymous]

theorem windowsMarks_renumber (anonymous : d.parameterStyle = .anonymous) :
    (o : Option (List WindowDef)) →
      renumberAll (windowsMarks d o) = windowsMarks d <$> renumberWindows? o
  | none => by simp [windowsMarks, renumberWindows?]
  | some ws => by simp [windowsMarks, renumberWindows?, windowDefsMarks_renumber anonymous ws]

theorem windowDefsMarks_renumber (anonymous : d.parameterStyle = .anonymous) :
    (ws : List WindowDef) →
      renumberParts (windowDefsMarks d ws) = windowDefsMarks d <$> renumberWindowDefs ws
  | [] => by simp [windowDefsMarks, renumberWindowDefs]
  | w :: ws => by
    simp [windowDefsMarks, renumberWindowDefs, w.marks_renumber anonymous,
      windowDefsMarks_renumber anonymous ws]

theorem WindowDef.marks_renumber (anonymous : d.parameterStyle = .anonymous) :
    (w : WindowDef) → renumberAll (w.marks d) = WindowDef.marks d <$> w.renumber
  | ⟨text, spec⟩ => by simp [WindowDef.marks, WindowDef.renumber, spec.marks_renumber anonymous]

theorem limitMarks_renumber (anonymous : d.parameterStyle = .anonymous) :
    (o : Option Limit) → renumberAll (limitMarks d o) = limitMarks d <$> renumberLimit? o
  | none => by simp [limitMarks, renumberLimit?]
  | some l => by simp [limitMarks, renumberLimit?, l.marks_renumber anonymous]

theorem Limit.marks_renumber (anonymous : d.parameterStyle = .anonymous) :
    (l : Limit) → renumberAll (l.marks d) = Limit.marks d <$> l.renumber
  | ⟨limit, offset⟩ => by
    simp [Limit.marks, Limit.renumber, keywordedMarks_renumber anonymous _ limit,
      keywordedMarks_renumber anonymous _ offset]

theorem fetchMarks_renumber (anonymous : d.parameterStyle = .anonymous) :
    (o : Option Fetch) → renumberAll (fetchMarks d o) = fetchMarks d <$> renumberFetch? o
  | none => by simp [fetchMarks, renumberFetch?]
  | some f => by simp [fetchMarks, renumberFetch?, f.marks_renumber anonymous]

theorem Fetch.marks_renumber (anonymous : d.parameterStyle = .anonymous) :
    (f : Fetch) → renumberAll (f.marks d) = Fetch.marks d <$> f.renumber
  | ⟨position, none, unit⟩ => by simp [Fetch.marks, Fetch.renumber, renumberExpr?]
  | ⟨position, some count, unit⟩ => by
    simp [Fetch.marks, Fetch.renumber, renumberExpr?, count.marks_renumber anonymous]

end

end SqlQuery
