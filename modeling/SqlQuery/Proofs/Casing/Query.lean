import SqlQuery.Grammar.Query
import SqlQuery.Proofs.Casing.Expression

/-!
The rules for clauses and queries on tokens in lowercase, and the levels at which they nest.
-/

namespace SqlQuery.Grammar

open Rule
open Rule (Lowers)

variable {level : Level} {scope : Scope}

theorem distinct_lowers (h : level.Lowers) :
    Lowers (Option.map Distinct.lower) (distinct level) (distinct level) := by
  refine (Lowers.eatKeyword _).choose ?_ ((Lowers.eatKeyword _).choose (.ret rfl) ?_)
  · refine Lowers.openParen.pass fun _ => (values_lowers h).bind fun es => ?_
    refine Lowers.closeParen.pass fun _ => .ret ?_
    simp [Distinct.lower]
  · exact (Lowers.eatKeyword _).pass fun _ => .ret rfl

theorem selectItem_lowers (h : level.Lowers) :
    Lowers SelectItem.lower (selectItem level) (selectItem level) := by
  refine (h.expr 0).bind fun value => (Lowers.eatKeyword _).pass fun explicit => ?_
  refine (Lowers.look 0 Token.isName_lower).pass fun named => .ite ?_ (.ret rfl)
  exact Lowers.name.bind fun name => .ret rfl

theorem selectClause_lowers (h : level.Lowers) :
    Lowers SelectClause.lower (selectClause level) (selectClause level) := by
  refine (Lowers.keyword _).pass fun _ => (distinct_lowers h).bind fun distinct => ?_
  refine (selectItem_lowers h).commaList.bind fun items => .ret ?_
  simp [SelectClause.lower]

theorem qualifiedName_lowers : Lowers (List.map Text.lower) qualifiedName qualifiedName :=
  Lowers.name.bind fun _ => ((Lowers.eatKind .dot).after .name).many.bind fun _ => .ret rfl

theorem dataSource_lowers (h : scope.Lowers) :
    Lowers DataSource.lower (dataSource scope) (dataSource scope) := by
  refine (Lowers.eatKind _).choose ((h.enter fun _ => nestedQuery_lowers).map fun _ => rfl) ?_
  refine qualifiedName_lowers.bind fun names => ?_
  dsimp only
  rw [dropLast_lower, getLastD_lower]
  refine (Lowers.look 0 (Token.isKind_lower _)).choose ?_ (.ret rfl)
  exact (functionCall_lowers h _ _).map fun _ => rfl

theorem sourceAlias_lowers (isTable : Bool) :
    Lowers (Option.map SourceAlias.lower) (sourceAlias isTable) (sourceAlias isTable) := by
  refine (Lowers.eatKeyword _).pass fun explicit => ?_
  refine (Lowers.look 0 Token.isName_lower).pass fun named => ?_
  refine (Lowers.look 1 fun t => by rw [Token.isOperator_lower]).pass fun continues => ?_
  refine .ite (Lowers.name.bind fun name => Lowers.columnNames.bind fun columns => ?_) (.ret rfl)
  exact .ret rfl

theorem isTable_lower (data : DataSource) :
    DataSource.isTable data.lower = DataSource.isTable data := by
  cases data <;> rfl

theorem source_lowers (h : scope.Lowers) : Lowers Source.lower (source scope) (source scope) := by
  refine (dataSource_lowers h).bind fun data => ?_
  rw [isTable_lower]
  exact (sourceAlias_lowers _).bind fun shown => .ret rfl

/-- A join starts with a keyword, or with a comma whatever its text. -/
theorem joinKind?_lower (t : Token) : joinKind? t.lower = joinKind? t := by
  refine Token.eq_of_fixed (fun t free => ?_) t
  have word : isKind .command t = false := Token.not_isKind_of_free rfl free
  simp [joinKind?, word]

theorem joinCondition_lowers (h : level.Lowers) :
    Lowers (Option.map JoinCondition.lower) (joinCondition level) (joinCondition level) := by
  refine (Lowers.eatKeyword _).choose ((h.expr 0).bind fun condition => .ret rfl) ?_
  exact (Lowers.eatKeyword _).choose (Lowers.nameList.bind fun names => .ret rfl) (.ret rfl)

theorem join_lowers (h : scope.Lowers) :
    Lowers (Option.map Join.lower) (join scope) (join scope) := by
  refine (Lowers.acceptPlain joinKind?_lower).pass fun o => ?_
  cases o with
  | none => exact .ret rfl
  | some found =>
    refine (Lowers.eatKeyword _).pass fun lateral => (source_lowers h).bind fun source => ?_
    refine .ite (.ret rfl) ((joinCondition_lowers h.here).bind fun condition => .ret ?_)
    simp [Join.lower]

theorem fromClause_lowers (h : scope.Lowers) :
    Lowers From.lower (fromClause scope) (fromClause scope) := by
  refine (source_lowers h).bind fun source => (join_lowers h).many.bind fun joins => .ret ?_
  simp [From.lower]

theorem hasBounds_lower (spec : WindowSpec) : spec.lower.hasBounds = spec.hasBounds := by
  cases spec
  simp [WindowSpec.lower, WindowSpec.hasBounds]

theorem boundedSpec_lowers (h : level.Lowers) :
    Lowers WindowSpec.lower (boundedSpec level) (boundedSpec level) := by
  refine (windowSpec_lowers h).bind fun spec => ?_
  rw [hasBounds_lower]
  exact .ite (.ret rfl) (.fail _)

theorem windowDef_lowers (h : scope.Lowers) :
    Lowers WindowDef.lower (windowDef scope) (windowDef scope) := by
  refine Lowers.name.bind fun name => (Lowers.keyword _).pass fun _ => ?_
  refine Lowers.openParen.pass fun _ => h.enter fun level lowers => ?_
  exact (boundedSpec_lowers lowers).bind fun spec => Lowers.closeParen.pass fun _ => .ret rfl

theorem eatRows_lowers : Lowers id eatRows eatRows :=
  (Lowers.eatWord _).choose (.ret rfl) (.eatWord _)

theorem offset_lowers (h : level.Lowers) :
    Lowers (Option.map Expr.lower) (offset level) (offset level) :=
  (Lowers.eatKeyword _).after ((h.expr 0).bind fun _ => eatRows_lowers.pass fun _ => .ret rfl)

theorem limit_lowers (h : level.Lowers) :
    Lowers (Option.map Limit.lower) (limit level) (limit level) := by
  refine (Lowers.eatKeyword _).choose ?_ ((offset_lowers h).bind fun o => ?_)
  · refine (h.expr 0).bind fun limit => (offset_lowers h).bind fun offset => .ret ?_
    simp [Limit.lower]
  · cases o with
    | none => exact .ret rfl
    | some offset =>
      refine ((Lowers.eatKeyword _).after (h.expr 0)).bind fun limit => .ret ?_
      simp [Limit.lower]

theorem fetchCount_lowers (h : level.Lowers) :
    Lowers (Option.map Expr.lower) (fetchCount level) (fetchCount level) :=
  (Lowers.look 0 fun t => by simp).choose (.ret rfl) ((h.expr 0).map fun _ => rfl)

theorem requireRows_lowers : Lowers id requireRows requireRows :=
  eatRows_lowers.choose (.ret rfl) (.fail _)

theorem fetchUnit_lowers (percent : Bool) : Lowers id (fetchUnit percent) (fetchUnit percent) := by
  refine (Lowers.eatWord _).choose (.ret rfl) (.ite (.fail _) ((Lowers.eatKeyword _).choose ?_ ?_))
  · exact (Lowers.word _).pass fun _ => .ret rfl
  · exact .fail _

theorem fetch_lowers (h : level.Lowers) : Lowers Fetch.lower (fetch level) (fetch level) := by
  refine Lowers.pass (.expect fun t => by simp [fetchPosition?]) fun position => ?_
  refine (fetchCount_lowers h).bind fun count => (Lowers.eatWord _).pass fun percent => ?_
  refine requireRows_lowers.pass fun _ => (fetchUnit_lowers percent).pass fun unit => .ret ?_
  simp [Fetch.lower]

theorem lock_lowers : Lowers id lock lock := by
  refine (Lowers.eatWord _).choose (.ret rfl) ((Lowers.eatWord _).choose (.ret rfl) ?_)
  refine (Lowers.eatWord _).choose ?_ ((Lowers.eatWord _).choose ?_ (.fail _))
  · exact (Lowers.word _).pass fun _ => (Lowers.word _).pass fun _ => .ret rfl
  · exact (Lowers.word _).pass fun _ => .ret rfl

theorem row_lowers (h : level.Lowers) : Lowers (List.map Expr.lower) (row level) (row level) :=
  Lowers.openParen.pass fun _ => (values_lowers h).bind fun _ => Lowers.closeParen.pass fun _ =>
    .ret rfl

theorem simpleSelect_lowers (h : scope.Lowers) (commonTables : Option With) :
    Lowers Select.lower (simpleSelect scope commonTables)
      (simpleSelect scope (commonTables.map With.lower)) := by
  have value := h.here.expr 0
  refine (selectClause_lowers h.here).bind fun clause => ?_
  refine ((Lowers.eatKeyword _).after (fromClause_lowers h)).bind fun source => ?_
  refine ((Lowers.eatKeyword _).after value).bind fun condition => ?_
  refine ((Lowers.eatKeyword _).after (values_lowers h.here)).bind fun groupBy => ?_
  refine ((Lowers.eatKeyword _).after value).bind fun having => ?_
  refine ((Lowers.eatKeyword _).after (windowDef_lowers h).commaList).bind fun windows => ?_
  refine (orderBy_lowers h.here).bind fun orderBy => (limit_lowers h.here).bind fun limit => ?_
  refine ((Lowers.eatKeyword _).after (fetch_lowers h.here)).bind fun fetch => ?_
  refine ((Lowers.eatKeyword _).after lock_lowers).bind fun lock => .ret ?_
  simp [Select.lower]

theorem term_lowers (h : scope.Lowers) (commonTables : Option With) :
    Lowers Query.lower (term scope commonTables)
      (term scope (commonTables.map With.lower)) := by
  refine (Lowers.eatKeyword _).choose ?_ ((simpleSelect_lowers h _).map fun _ => rfl)
  exact (row_lowers h.here).commaList.map fun rows => by simp [Query.lower]

theorem materialized_lowers : Lowers id materialized materialized :=
  (Lowers.eatKeyword _).choose (.ret rfl) ((Lowers.eatKeyword _).choose (.ret rfl) (.ret rfl))

theorem commonTable_lowers (h : scope.Lowers) :
    Lowers CommonTable.lower (commonTable scope) (commonTable scope) := by
  refine Lowers.name.bind fun name => Lowers.columnNames.bind fun columns => ?_
  refine (Lowers.keyword _).pass fun _ => materialized_lowers.pass fun materialized => ?_
  refine Lowers.openParen.pass fun _ => ?_
  exact (h.enter fun _ => nestedQuery_lowers).bind fun query => .ret rfl

theorem commonTables_lowers (h : scope.Lowers) :
    Lowers (Option.map With.lower) (commonTables scope) (commonTables scope) := by
  refine (Lowers.eatKeyword _).after ((Lowers.eatKeyword _).pass fun recursive => ?_)
  refine (commonTable_lowers h).commaList.bind fun tables => ?_
  refine (Lowers.look 0 (Token.isCommand_lower · _)).choose (.ret ?_) (.fail _)
  simp [With.lower]

/-- An operator between queries and the query after it, in lowercase. -/
def lowerOperation (operation : String × Query) : String × Query :=
  (operation.1, operation.2.lower)

theorem setOperation_lowers (h : scope.Lowers) :
    Lowers (Option.map lowerOperation) (setOperation scope) (setOperation scope) := by
  refine (Lowers.acceptPlain (Token.eq_of_fixed fun t free => ?_)).pass fun o => ?_
  · have word : isKind .command t = false := Token.not_isKind_of_free rfl free
    simp [word]
  · cases o with
    | none => exact .ret rfl
    | some operator => exact (term_lowers h none).bind fun query => .ret rfl

theorem foldl_lower (operations : List (String × Query)) (first : Query) :
    (operations.foldl (fun left (operator, right) => .binary left operator right) first).lower =
      (operations.map lowerOperation).foldl
        (fun left (operator, right) => Query.binary left operator right) first.lower := by
  induction operations generalizing first with
  | nil => rfl
  | cons operation operations ih =>
    rw [List.foldl_cons, List.map_cons, List.foldl_cons, ih, Query.lower]
    rfl

theorem query_lowers (h : scope.Lowers) : Lowers Query.lower (query scope) (query scope) :=
  (commonTables_lowers h).bind fun tables => (term_lowers h tables).bind fun first =>
    (setOperation_lowers h).many.bind fun operations => .ret (foldl_lower operations first).symm

theorem levelAt_lowers (n : Nat) : (levelAt n).Lowers ∧ (scopeAt n).Lowers := by
  refine levelAt_invariant (fun _ => Scope.Lowers.mk) ⟨?_, ?_⟩ (fun s scope => ?_) n
  · exact fun _ _ => rfl
  · exact fun _ => rfl
  · exact ⟨expression_lowers scope, query_lowers scope⟩

theorem statementAt_lowers (levels : Nat) :
    Lowers Query.lower (statementAt levels) (statementAt levels) := by
  refine (levelAt_lowers levels).1.query.bind fun query => ?_
  refine (Lowers.eat (Token.isOperator_lower · _)).pass fun _ => Lowers.peek.bind fun o => ?_
  rw [Option.isSome_map]
  exact .ite (.stop _) (.ret rfl)

end SqlQuery.Grammar
