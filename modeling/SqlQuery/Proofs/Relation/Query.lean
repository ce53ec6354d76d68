import SqlQuery.Grammar.Query
import SqlQuery.Proofs.Relation.Expression

/-!
The rules for queries, and with them those of a level, which are related if the scopes are from which
they call.
-/

namespace SqlQuery.Grammar

open Rule
open Rule.Relation (Holds)

variable {R inner : Relation} {level level' : Level} {scope scope' : Scope}

theorem distinct_related (h : level.Related R level') :
    R.Holds (distinct level) (distinct level') := by
  refine Holds.choose (.eat _) ?_ (Holds.choose (.eat _) (.ret _) ((Holds.eat _).bind fun _ => .ret _))
  refine (Holds.require _ _).bind fun _ => (values_related h).bind fun values => ?_
  exact (Holds.require _ _).bind fun _ => .ret _

theorem selectItem_related (h : level.Related R level') :
    R.Holds (selectItem level) (selectItem level') := by
  refine (h.expr 0).bind fun value => (Holds.eat _).bind fun explicit => ?_
  refine (Holds.look (Nat.zero_le 2) _).bind fun named => .ite ?_ (.ret _)
  exact Holds.name.bind fun name => .ret _

theorem selectClause_related (h : level.Related R level') :
    R.Holds (selectClause level) (selectClause level') :=
  (Holds.require _ _).bind fun _ => (distinct_related h).bind fun distinct =>
    (selectItem_related h).commaList.bind fun items => .ret (SelectClause.mk distinct items)

theorem qualifiedName_related : R.Holds qualifiedName qualifiedName :=
  Holds.name.bind fun first => Holds.name.many_after.bind fun others => .ret (first :: others)

theorem dataSource_related (h : scope.Related R inner scope') :
    R.Holds (dataSource scope) (dataSource scope') := by
  refine Holds.choose (.eat _) ((h.enter fun _ _ => nestedQuery_related).map _) ?_
  refine qualifiedName_related.bind fun names => Holds.choose (.look (Nat.zero_le 2) _) ?_ (.ret _)
  exact (functionCall_related h _ _).map _

/-- Whether anything but a semicolon follows the name is seen one token ahead. -/
theorem sourceAlias_related (isTable : Bool) :
    R.Holds (sourceAlias isTable) (sourceAlias isTable) := by
  refine (Holds.eat _).bind fun explicit => (Holds.look (Nat.zero_le 2) _).bind fun named => ?_
  refine (Holds.look (by decide) _).bind fun continues => .ite ?_ (.ret none)
  exact Holds.name.bind fun name => Holds.columnNames.bind fun columns => .ret _

theorem source_related (h : scope.Related R inner scope') :
    R.Holds (source scope) (source scope') :=
  (dataSource_related h).bind fun data =>
    (sourceAlias_related _).bind fun shown => .ret (Source.mk data shown)

theorem joinCondition_related (h : level.Related R level') :
    R.Holds (joinCondition level) (joinCondition level') := by
  refine Holds.choose (.eat _) ((h.expr 0).bind fun condition => .ret _) ?_
  exact Holds.choose (.eat _) (Holds.nameList.bind fun names => .ret _) (.ret none)

theorem joins_related (h : scope.Related R inner scope') :
    R.Holds (many (join scope)) (many (join scope')) := by
  refine Holds.many_accept rfl rfl fun o => ?_
  cases o with
  | none => exact .ret none
  | some found =>
    refine (Holds.eat _).bind fun lateral => (source_related h).bind fun source => .ite (.ret _) ?_
    exact (joinCondition_related h.here).bind fun condition => .ret _

theorem fromClause_related (h : scope.Related R inner scope') :
    R.Holds (fromClause scope) (fromClause scope') :=
  (source_related h).bind fun source => (joins_related h).bind fun joins => .ret (From.mk source joins)

theorem boundedSpec_related (h : level.Related R level') :
    R.Holds (boundedSpec level) (boundedSpec level') :=
  (windowSpec_related h).bind fun spec => .ite (.ret spec) (.fail _)

theorem windowDef_related (h : scope.Related R inner scope') :
    R.Holds (windowDef scope) (windowDef scope') := by
  refine Holds.name.bind fun name => (Holds.require _ _).bind fun _ => ?_
  refine (Holds.require _ _).bind fun _ => h.enter fun level level' related => ?_
  exact (boundedSpec_related related).bind fun spec => (Holds.require _ _).bind fun _ => .ret _

theorem eatRows_related : R.Holds eatRows eatRows :=
  Holds.choose (.eat _) (.ret true) (.eat _)

theorem offset_related (h : level.Related R level') :
    R.Holds (offset level) (offset level') :=
  .after (.eat _) ((h.expr 0).bind fun value => eatRows_related.bind fun _ => .ret value)

theorem limit_related (h : level.Related R level') :
    R.Holds (limit level) (limit level') := by
  refine Holds.choose (.eat _) ?_ ((offset_related h).bind fun o => ?_)
  · exact (h.expr 0).bind fun limit => (offset_related h).bind fun offset => .ret _
  cases o with
  | none => exact .ret none
  | some offset => exact (Holds.after (.eat _) (h.expr 0)).bind fun limit => .ret _

theorem fetchCount_related (h : level.Related R level') :
    R.Holds (fetchCount level) (fetchCount level') :=
  Holds.choose (.look (Nat.zero_le 2) _) (.ret none) ((h.expr 0).map some)

theorem requireRows_related : R.Holds requireRows requireRows :=
  eatRows_related.choose (.ret ()) (.fail _)

theorem fetchUnit_related (percent : Bool) : R.Holds (fetchUnit percent) (fetchUnit percent) := by
  refine Holds.choose (.eat _) (.ret _) (.ite (.fail _) (Holds.choose (.eat _) ?_ (.fail _)))
  exact (Holds.require _ _).bind fun _ => .ret _

theorem fetch_related (h : level.Related R level') :
    R.Holds (fetch level) (fetch level') := by
  refine (Holds.expect _ _).bind fun position => (fetchCount_related h).bind fun count => ?_
  refine (Holds.eat _).bind fun percent => requireRows_related.bind fun _ => ?_
  exact (fetchUnit_related percent).bind fun unit => .ret _

theorem lock_related : R.Holds lock lock := by
  refine Holds.choose (.eat _) (.ret _) (Holds.choose (.eat _) (.ret _)
    (Holds.choose (.eat _) ?_ (Holds.choose (.eat _) ?_ (.fail _))))
  · exact (Holds.require _ _).bind fun _ => (Holds.require _ _).bind fun _ => .ret _
  · exact (Holds.require _ _).bind fun _ => .ret _

theorem row_related (h : level.Related R level') :
    R.Holds (row level) (row level') :=
  (Holds.require _ _).bind fun _ => (values_related h).bind fun values =>
    (Holds.require _ _).bind fun _ => .ret values

theorem simpleSelect_related (h : scope.Related R inner scope') (commonTables : Option With) :
    R.Holds (simpleSelect scope commonTables) (simpleSelect scope' commonTables) := by
  have value := h.here.expr 0
  refine (selectClause_related h.here).bind fun clause => ?_
  refine (Holds.after (.eat _) (fromClause_related h)).bind fun source => ?_
  refine (Holds.after (.eat _) value).bind fun condition => ?_
  refine (Holds.after (.eat _) (values_related h.here)).bind fun groupBy => ?_
  refine (Holds.after (.eat _) value).bind fun having => ?_
  refine (Holds.after (.eat _) (windowDef_related h).commaList).bind fun windows => ?_
  refine (orderBy_related h.here).bind fun orderBy => (limit_related h.here).bind fun limit => ?_
  refine (Holds.after (.eat _) (fetch_related h.here)).bind fun fetch => ?_
  exact (Holds.after (.eat _) lock_related).bind fun lock => .ret _

theorem term_related (h : scope.Related R inner scope') (commonTables : Option With) :
    R.Holds (term scope commonTables) (term scope' commonTables) :=
  Holds.choose (.eat _) ((row_related h.here).commaList.map _)
    ((simpleSelect_related h commonTables).map _)

theorem materialized_related : R.Holds materialized materialized :=
  Holds.choose (.eat _) (.ret _) (Holds.choose (.eat _) (.ret _) (.ret _))

theorem commonTable_related (h : scope.Related R inner scope') :
    R.Holds (commonTable scope) (commonTable scope') := by
  refine Holds.name.bind fun name => Holds.columnNames.bind fun columns => ?_
  refine (Holds.require _ _).bind fun _ => materialized_related.bind fun materialized => ?_
  refine (Holds.require _ _).bind fun _ => ?_
  exact (h.enter fun _ _ => nestedQuery_related).bind fun query => .ret _

theorem commonTables_related (h : scope.Related R inner scope') :
    R.Holds (commonTables scope) (commonTables scope') := by
  refine .after (.eat _) ((Holds.eat _).bind fun recursive => ?_)
  refine (commonTable_related h).commaList.bind fun tables => ?_
  exact Holds.choose (.look (Nat.zero_le 2) _) (.ret _) (.fail _)

theorem setOperations_related (h : scope.Related R inner scope') :
    R.Holds (many (setOperation scope)) (many (setOperation scope')) := by
  refine Holds.many_accept rfl rfl fun o => ?_
  cases o with
  | none => exact .ret none
  | some operator => exact (term_related h none).bind fun query => .ret _

theorem query_related (h : scope.Related R inner scope') :
    R.Holds (query scope) (query scope') :=
  (commonTables_related h).bind fun tables => (term_related h tables).bind fun _ =>
    (setOperations_related h).bind fun _ => .ret _

theorem levelAt_succ_related {n m : Nat} (h : (scopeAt n).Related R inner (scopeAt m)) :
    (levelAt (n + 1)).Related R (levelAt (m + 1)) := by
  refine ⟨fun floor => ?_, ?_⟩
  · simpa only [levelAt, exprAt_succ] using expression_related h floor
  · simpa only [levelAt, queryAt_succ] using query_related h

theorem statementAt_related {n m : Nat} (trailing : R.Holds (stop .trailing : Rule Query) (stop .trailing))
    (h : R.Holds (queryAt n) (queryAt m)) : R.Holds (statementAt n) (statementAt m) :=
  h.bind fun query => (Holds.eat _).bind fun _ => Holds.peek.bind fun _ => .ite trailing (.ret query)

end SqlQuery.Grammar
