import SqlQuery.Proofs.Agreement.Level
import SqlQuery.Proofs.Tail.Expression

/-!
The rules for queries on two lists of tokens that differ in their tails, and with them the levels.
-/

namespace SqlQuery.Grammar

open Rule Tails

variable {T : Tails} {level : Level} {scope : Scope} {b : List Token} {t : Token}

theorem distinct_swaps (h : level.Swaps T) :
    T.Swaps (Found (T.At Distinct.toJson)) (distinct level) := by
  refine .choose (.eat (by decide)) ?_ (.choose (.eat (by decide)) (.ret _)
    ((Swaps.eat (by decide)).andThen fun _ => .ret _))
  refine (Swaps.require (by decide)).andThen fun _ => (values_swaps h).bind (fun values => ?_)
    fun _ _ differ => .bind fun _ => .ret (.mk (.field [] _ [] (.field [] _ [] (.exprs differ))))
  exact (Swaps.require (by decide)).andThen fun _ => .ret _

theorem selectItem_swaps (h : level.Swaps T) :
    T.Swaps (T.At SelectItem.toJson) (selectItem level) := by
  refine (h.expr 0).bind (fun value => ?_) fun _ _ differ => ?_
  · refine (Swaps.eat (by decide)).andThen fun explicit => ?_
    refine (Swaps.look (Nat.zero_le 1) (by decide)).andThen fun named => .ite ?_ (.ret _)
    exact Swaps.name.andThen fun name => .ret _
  · refine .bind fun explicit => .bind fun named => .ite (.bind fun name => ?_) ?_
    · exact .ret (.field [] _ [_] differ)
    · exact .ret (.field [] _ [_] differ)

theorem selectClause_swaps (h : level.Swaps T) :
    T.Swaps (T.At SelectClause.toJson) (selectClause level) := by
  refine (Swaps.require (by decide)).andThen fun _ => (distinct_swaps h).bind (fun distinct => ?_) ?_
  · exact ((selectItem_swaps h).commaList (shortens_of_agreement (selectItem_related h.agrees))).bind
      (fun items => .ret _) fun _ _ differ =>
        .ret (.through SelectClause.toJson_eq (.field [_] _ [] (.items (fun _ _ => rfl) differ)))
  · rintro _ _ ⟨differ⟩
    exact .bind fun items => .ret (.through SelectClause.toJson_eq (.field [] _ [_] differ))

theorem qualifiedName_swaps {D : List String → List String → Prop} : T.Swaps D qualifiedName := by
  refine Swaps.name.andThen fun first => ?_
  exact (Swaps.many_after (by decide) Swaps.name (shortens_of_agreement .name)).same.andThen
    fun others => .ret (first :: others)

/-- No source in which something differs is a table. -/
def SourcesDiffer (T : Tails) (d d' : DataSource) : Prop :=
  T.At DataSource.toJson d d' ∧ DataSource.isTable d = DataSource.isTable d'

theorem dataSource_swaps (h : scope.Swaps T) : T.Swaps (SourcesDiffer T) (dataSource scope) := by
  refine .choose (.eat (by decide)) ?_ (qualifiedName_swaps.andThen fun names => ?_)
  · exact (Swaps.enter fun level inside => nestedQuery_swaps (h.inside level inside)).map
      fun _ _ differ => ⟨.field [] _ [] differ, rfl⟩
  · refine .choose (.look (Nat.zero_le 1) (by decide)) ?_ (.ret _)
    exact (functionCall_swaps h _ _).map fun _ _ differ => ⟨.field [] _ [] differ, rfl⟩

/-- Whether a name that stands alone is an alias is the same before a semicolon and before the end. -/
theorem sourceAlias_swaps {D : Option SourceAlias → Option SourceAlias → Prop} (isTable : Bool) :
    T.Swaps D (sourceAlias isTable) := by
  refine (Swaps.eat (by decide)).andThen fun explicit => ?_
  refine (Swaps.look (Nat.zero_le 1) (by decide)).andThen fun named => ?_
  refine (Swaps.look (Nat.le_refl 1) (by decide)).andThen fun continues => .ite ?_ (.ret none)
  exact Swaps.name.andThen fun name => Swaps.columnNames.andThen fun columns => .ret _

theorem source_swaps (h : scope.Swaps T) : T.Swaps (T.At Source.toJson) (source scope) := by
  refine (dataSource_swaps h).bind (fun data => ?_) fun _ _ differ => ?_
  · exact (sourceAlias_swaps _).andThen fun shown => .ret (Source.mk data shown)
  · rw [differ.2]
    exact .bind fun shown => .ret (.field [] _ [_] differ.1)

theorem joinCondition_swaps (h : level.Swaps T) :
    T.Swaps (Found (T.At JoinCondition.toJson)) (joinCondition level) := by
  refine .choose (.eat (by decide)) ?_ (.choose (.eat (by decide)) ?_ (.ret none))
  · exact (h.expr 0).bind (fun condition => .ret _)
      fun _ _ differ => .ret (.mk (.field [] _ [] differ))
  · exact Swaps.nameList.andThen fun names => .ret _

theorem join_swaps (h : scope.Swaps T) : T.Swaps (Found (T.At Join.toJson)) (join scope) := by
  refine (Swaps.accept (by decide)).andThen fun o => ?_
  cases o with
  | none => exact .ret none
  | some found =>
    refine (Swaps.eat (by decide)).andThen fun lateral => (source_swaps h).bind (fun source => ?_)
      fun _ _ differ => ?_
    · refine .ite (.ret _) ((joinCondition_swaps h.here).bind (fun condition => .ret _) ?_)
      rintro _ _ ⟨differ⟩
      exact .ret (.mk (.through Join.toJson_eq (.field [_, _, _] _ [] differ)))
    · refine .ite (.ret ?_) (.bind fun condition => .ret ?_)
      · exact .mk (.through Join.toJson_eq (.field [_, _] _ [_] differ))
      · exact .mk (.through Join.toJson_eq (.field [_, _] _ [_] differ))

theorem fromClause_swaps (h : scope.Swaps T) : T.Swaps (T.At From.toJson) (fromClause scope) := by
  have taking : Takes (join scope) := .of_accept rfl fun o => by
    cases o with
    | none => exact shortens_ret
    | some found =>
      refine shortens_of_agreement (Relation.Holds.bind (.eat _) fun lateral => ?_)
      refine (source_related h.agrees).bind fun source => .ite (.ret _) ?_
      exact (joinCondition_related h.agrees.here).bind fun condition => .ret _
  refine (source_swaps h).bind (fun source => ?_) fun _ _ differ => ?_
  · exact ((join_swaps h).many taking).bind (fun joins => .ret _) fun _ _ differ =>
      .ret (.field [_] _ [] (.items (fun _ _ => rfl) differ))
  · exact .bind fun joins => .ret (.field [] _ [_] differ)

theorem boundedSpec_swaps (h : level.Swaps T) :
    T.Swaps (T.At WindowSpec.toJson) (boundedSpec level) := by
  refine (windowSpec_swaps h).bind (fun spec => .ite (.ret spec) (.fail _)) fun _ _ differ => ?_
  rw [differ.2]
  exact .ite (.ret differ.1) (.fail _)

theorem windowDef_swaps (h : scope.Swaps T) :
    T.Swaps (T.At WindowDef.toJson) (windowDef scope) := by
  refine Swaps.name.andThen fun name => (Swaps.require (by decide)).andThen fun _ => ?_
  refine (Swaps.require (by decide)).andThen fun _ => Swaps.enter fun level inside => ?_
  refine (boundedSpec_swaps (h.inside level inside)).bind (fun spec => ?_)
    fun _ _ differ => .bind fun _ => .ret (.field [_] _ [] differ)
  exact (Swaps.require (by decide)).andThen fun _ => .ret _

theorem eatRows_swaps {D : Bool → Bool → Prop} : T.Swaps D eatRows :=
  .choose (.eat (by decide)) (.ret true) (.eat (by decide))

theorem offset_swaps (h : level.Swaps T) : T.Swaps (Found (T.At Expr.toJson)) (offset level) := by
  refine .after (.eat (by decide)) ((h.expr 0).bind (fun value => ?_)
    fun _ _ differ => .bind fun _ => .ret differ)
  exact eatRows_swaps.andThen fun _ => .ret value

theorem limit_swaps (h : level.Swaps T) : T.Swaps (Found (T.At Limit.toJson)) (limit level) := by
  refine .choose (.eat (by decide)) ?_ ((offset_swaps h).bind (fun o => ?_) ?_)
  · refine (h.expr 0).bind (fun limit => (offset_swaps h).bind (fun offset => .ret _) ?_)
      fun _ _ differ => .bind fun offset => .ret (.mk (.field [] _ [_] differ))
    rintro _ _ ⟨differ⟩
    exact .ret (.mk (.field [_] _ [] differ))
  · cases o with
    | none => exact .ret none
    | some offset =>
      refine (Swaps.after (.eat (by decide)) (h.expr 0)).bind (fun limit => .ret _) ?_
      rintro _ _ ⟨differ⟩
      exact .ret (.mk (.field [] _ [_] differ))
  · rintro _ _ ⟨differ⟩
    exact .bind fun limit => .ret (.mk (.field [_] _ [] differ))

theorem fetchCount_swaps (h : level.Swaps T) :
    T.Swaps (Found (T.At Expr.toJson)) (fetchCount level) :=
  .choose (.look (Nat.zero_le 1) (by decide)) (.ret none) ((h.expr 0).map fun _ _ => .mk)

theorem requireRows_swaps {D : Unit → Unit → Prop} : T.Swaps D requireRows :=
  eatRows_swaps.choose (.ret ()) (.fail _)

theorem fetchUnit_swaps {D : FetchUnit → FetchUnit → Prop} (percent : Bool) :
    T.Swaps D (fetchUnit percent) := by
  refine .choose (.eat (by decide)) (.ret _) (.ite (.fail _) ?_)
  refine .choose (.eat (by decide)) ?_ (.fail _)
  exact (Swaps.require (by decide)).andThen fun _ => .ret _

theorem fetch_swaps (h : level.Swaps T) : T.Swaps (T.At Fetch.toJson) (fetch level) := by
  refine (Swaps.expect (by decide)).andThen fun position => ?_
  refine (fetchCount_swaps h).bind (fun count => ?_) ?_
  · refine (Swaps.eat (by decide)).andThen fun percent => requireRows_swaps.andThen fun _ => ?_
    exact (fetchUnit_swaps percent).andThen fun unit => .ret _
  · rintro _ _ ⟨differ⟩
    exact .bind fun percent => .bind fun _ => .bind fun unit => .ret (.field [_] _ [_] differ)

theorem lock_swaps {D : LockMode → LockMode → Prop} : T.Swaps D lock := by
  refine .choose (.eat (by decide)) (.ret _) (.choose (.eat (by decide)) (.ret _)
    (.choose (.eat (by decide)) ?_ (.choose (.eat (by decide)) ?_ (.fail _))))
  · refine (Swaps.require (by decide)).andThen fun _ => ?_
    exact (Swaps.require (by decide)).andThen fun _ => .ret _
  · exact (Swaps.require (by decide)).andThen fun _ => .ret _

theorem row_swaps (h : level.Swaps T) : T.Swaps (OneOf (T.At Expr.toJson)) (row level) :=
  (Swaps.require (by decide)).andThen fun _ => closed_swaps (values_swaps h)

section Fields

variable {commonTables : Option With} {clause clause' : SelectClause} {source : Option From}
  {condition : Option Expr} {groupBy : Option (List Expr)} {having : Option Expr}
  {windows : Option (List WindowDef)} {orderBy : Option (List OrderItem)} {limit : Option Limit}
  {fetch : Option Fetch} {lock : Option LockMode}

theorem select_clause (differ : T.At SelectClause.toJson clause clause') : T.At Select.toJson
    ⟨commonTables, clause, source, condition, groupBy, having, windows, orderBy, limit, fetch, lock⟩
    ⟨commonTables, clause', source, condition, groupBy, having, windows, orderBy, limit, fetch, lock⟩ :=
  .through Select.toJson_eq (.member 1 rfl differ)

theorem select_source {f f' : From} (differ : T.At From.toJson f f') : T.At Select.toJson
    ⟨commonTables, clause, some f, condition, groupBy, having, windows, orderBy, limit, fetch, lock⟩
    ⟨commonTables, clause, some f', condition, groupBy, having, windows, orderBy, limit, fetch, lock⟩ :=
  .through Select.toJson_eq (.member 2 rfl differ)

theorem select_condition {e e' : Expr} (differ : T.At Expr.toJson e e') : T.At Select.toJson
    ⟨commonTables, clause, source, some e, groupBy, having, windows, orderBy, limit, fetch, lock⟩
    ⟨commonTables, clause, source, some e', groupBy, having, windows, orderBy, limit, fetch, lock⟩ :=
  .through Select.toJson_eq (.member 3 rfl (.member 0 rfl differ))

theorem select_groupBy {es es' : List Expr} (differ : OneOf (T.At Expr.toJson) es es') : T.At Select.toJson
    ⟨commonTables, clause, source, condition, some es, having, windows, orderBy, limit, fetch, lock⟩
    ⟨commonTables, clause, source, condition, some es', having, windows, orderBy, limit, fetch, lock⟩ :=
  .through Select.toJson_eq (.member 4 rfl (.member 0 rfl (.exprs differ)))

theorem select_having {e e' : Expr} (differ : T.At Expr.toJson e e') : T.At Select.toJson
    ⟨commonTables, clause, source, condition, groupBy, some e, windows, orderBy, limit, fetch, lock⟩
    ⟨commonTables, clause, source, condition, groupBy, some e', windows, orderBy, limit, fetch, lock⟩ :=
  .through Select.toJson_eq (.member 5 rfl (.member 0 rfl differ))

theorem select_windows {ws ws' : List WindowDef} (differ : OneOf (T.At WindowDef.toJson) ws ws') :
    T.At Select.toJson
      ⟨commonTables, clause, source, condition, groupBy, having, some ws, orderBy, limit, fetch, lock⟩
      ⟨commonTables, clause, source, condition, groupBy, having, some ws', orderBy, limit, fetch, lock⟩ :=
  .through Select.toJson_eq (.member 6 rfl (.member 0 rfl (.items (fun _ _ => rfl) differ)))

theorem select_orderBy {is is' : List OrderItem} (differ : OneOf (T.At OrderItem.toJson) is is') :
    T.At Select.toJson
      ⟨commonTables, clause, source, condition, groupBy, having, windows, some is, limit, fetch, lock⟩
      ⟨commonTables, clause, source, condition, groupBy, having, windows, some is', limit, fetch, lock⟩ :=
  .through Select.toJson_eq (.member 7 rfl (.member 0 rfl (.items (fun _ _ => rfl) differ)))

theorem select_limit {l l' : Limit} (differ : T.At Limit.toJson l l') : T.At Select.toJson
    ⟨commonTables, clause, source, condition, groupBy, having, windows, orderBy, some l, fetch, lock⟩
    ⟨commonTables, clause, source, condition, groupBy, having, windows, orderBy, some l', fetch, lock⟩ :=
  .through Select.toJson_eq (.member 8 rfl differ)

theorem select_fetch {f f' : Fetch} (differ : T.At Fetch.toJson f f') : T.At Select.toJson
    ⟨commonTables, clause, source, condition, groupBy, having, windows, orderBy, limit, some f, lock⟩
    ⟨commonTables, clause, source, condition, groupBy, having, windows, orderBy, limit, some f', lock⟩ :=
  .through Select.toJson_eq (.member 9 rfl differ)

end Fields

/-- What differs in a clause is carried over the clauses that follow. -/
theorem clause_swaps {α γ : Type} {D : α → α → Prop} {E : γ → γ → Prop} {first : Rule (Option α)}
    {next : Option α → Rule γ} (reads : T.Swaps (Found D) first)
    (carry : ∀ a a', D a a' → T.Carries E (next (some a)) (next (some a')))
    (same : ∀ found, T.Swaps E (next found)) : T.Swaps E (first >>= next) := by
  apply reads.bind same
  rintro _ _ ⟨differ⟩
  exact carry _ _ differ

theorem simpleSelect_swaps (h : scope.Swaps T) (commonTables : Option With) :
    T.Swaps (T.At Select.toJson) (simpleSelect scope commonTables) := by
  have value := h.here.expr 0
  have windows := (windowDef_swaps h).commaList (shortens_of_agreement (windowDef_related h.agrees))
  refine (selectClause_swaps h.here).bind (fun clause => ?_) fun _ _ differ => ?_
  rotate_left
  · repeat' refine .bind fun _ => ?_
    exact .ret (select_clause differ)
  refine clause_swaps (.after (.eat (by decide)) (fromClause_swaps h)) (fun _ _ differ => ?_) fun source => ?_
  · repeat' refine .bind fun _ => ?_
    exact .ret (select_source differ)
  refine clause_swaps (.after (.eat (by decide)) value) (fun _ _ differ => ?_) fun condition => ?_
  · repeat' refine .bind fun _ => ?_
    exact .ret (select_condition differ)
  refine clause_swaps (.after (.eat (by decide)) (values_swaps h.here)) (fun _ _ differ => ?_) fun groupBy => ?_
  · repeat' refine .bind fun _ => ?_
    exact .ret (select_groupBy differ)
  refine clause_swaps (.after (.eat (by decide)) value) (fun _ _ differ => ?_) fun having => ?_
  · repeat' refine .bind fun _ => ?_
    exact .ret (select_having differ)
  refine clause_swaps (.after (.eat (by decide)) windows) (fun _ _ differ => ?_) fun windows => ?_
  · repeat' refine .bind fun _ => ?_
    exact .ret (select_windows differ)
  refine clause_swaps (orderBy_swaps h.here) (fun _ _ differ => ?_) fun orderBy => ?_
  · repeat' refine .bind fun _ => ?_
    exact .ret (select_orderBy differ)
  refine clause_swaps (limit_swaps h.here) (fun _ _ differ => ?_) fun limit => ?_
  · repeat' refine .bind fun _ => ?_
    exact .ret (select_limit differ)
  refine clause_swaps (.after (.eat (by decide)) (fetch_swaps h.here)) (fun _ _ differ => ?_) fun fetch => ?_
  · repeat' refine .bind fun _ => ?_
    exact .ret (select_fetch differ)
  exact (Swaps.after (.eat (by decide)) (lock_swaps (D := Same))).bind (fun lock => .ret _) nofun

theorem term_swaps (h : scope.Swaps T) (commonTables : Option With) :
    T.Swaps (T.At Query.toJson) (term scope commonTables) := by
  have rows := (row_swaps h.here).commaList (shortens_of_agreement (row_related h.agrees.here))
  refine .choose (.eat (by decide)) (rows.map fun _ _ differ => ?_)
    ((simpleSelect_swaps h commonTables).map fun _ _ differ => .field [] _ [] differ)
  exact .field [] _ [] (.field [] _ [] (.items (fun _ _ => rfl) (differ.mono fun _ _ differ =>
    .field [] _ [] (.exprs differ))))

/-- A select takes the common tables as they are. -/
theorem term_carries {w w' : With} (differ : T.At With.toJson w w') {ts : List Token}
    (selects : ts[0]?.any (fun t => t.isCommand "select") = true) :
    T.CarriesAt (T.At Query.toJson) (term scope (some w)) (term scope (some w')) ts := by
  have lacks : Lacks (fun t => t.isCommand "values") ts := by
    intro t head
    obtain ⟨rest, rfl⟩ := List.head?_eq_some_iff.1 head
    have select : t.isCommand "select" = true := selects
    simp only [Token.isCommand, Bool.and_eq_true, beq_iff_eq] at select
    simp [Token.isCommand, select.2]
  refine .of_gives (Gives.eat_false lacks) ?_
  have select : T.Carries (T.At Select.toJson) (simpleSelect scope (some w))
      (simpleSelect scope (some w')) := by
    repeat' refine .bind fun _ => ?_
    exact .ret (.through Select.toJson_eq (.field [] _ [_, _, _, _, _, _, _, _, _, _] differ))
  exact (select ts).bind fun _ _ differ => .ret (.field [] _ [] differ)

theorem materialized_swaps {D : Option Bool → Option Bool → Prop} : T.Swaps D materialized :=
  .choose (.eat (by decide)) (.ret _) (.choose (.eat (by decide)) (.ret _) (.ret _))

theorem commonTable_swaps (h : scope.Swaps T) :
    T.Swaps (T.At CommonTable.toJson) (commonTable scope) := by
  refine Swaps.name.andThen fun name => Swaps.columnNames.andThen fun columns => ?_
  refine (Swaps.require (by decide)).andThen fun _ => ?_
  refine materialized_swaps.andThen fun materialized => ?_
  refine (Swaps.require (by decide)).andThen fun _ => ?_
  exact (Swaps.enter fun level inside => nestedQuery_swaps (h.inside level inside)).bind
    (fun query => .ret _) fun _ _ differ => .ret (.field [_, _] _ [] differ)

theorem commonTables_swaps (h : scope.Swaps T) :
    T.Swaps (Found (T.At With.toJson)) (commonTables scope) := by
  refine .after (.eat (by decide)) ((Swaps.eat (by decide)).andThen fun recursive => ?_)
  have tables := (commonTable_swaps h).commaList
    (shortens_of_agreement (commonTable_related h.agrees))
  refine tables.bind (fun tables => ?_) fun _ _ differ => .bind fun selects => .ite ?_ (.fail _)
  · exact .choose (.look (Nat.zero_le 1) (by decide)) (.ret _) (.fail _)
  · exact .ret (.field [_] _ [] (.items (fun _ _ => rfl) differ))

/-- Common tables come before a select. -/
theorem commonTables_select :
    Triple (fun _ => True) (commonTables scope) fun o rest =>
      o.isSome → rest[0]?.any (fun t => t.isCommand "select") = true := by
  refine Triple.after (R := fun _ => True) ?_ ?_
  · intro ts found rest _ _
    cases found <;> simp
  refine Triple.bind (Q := fun _ _ => True) (fun _ _ _ _ _ => trivial) fun recursive => ?_
  refine Triple.bind (Q := fun _ _ => True) (fun _ _ _ _ _ => trivial) fun tables => ?_
  refine (Triple.look (Q := fun found rest => found = rest[0]?.any fun t => t.isCommand "select")
    fun _ _ => rfl).bind fun selects => ?_
  refine Triple.ite (fun yes => Triple.ret fun rest same _ => ?_) fun _ => Triple.fail
  rw [← same, yes]

/-- The query of an operation differs. -/
def OperationsDiffer (T : Tails) (o o' : String × Query) : Prop :=
  o.1 = o'.1 ∧ T.At Query.toJson o.2 o'.2

theorem setOperation_swaps (h : scope.Swaps T) :
    T.Swaps (Found (OperationsDiffer T)) (setOperation scope) := by
  refine (Swaps.accept (by decide)).andThen fun o => ?_
  cases o with
  | none => exact .ret none
  | some operator =>
    exact (term_swaps h none).bind (fun query => .ret (some (operator, query))) fun _ _ differ =>
      .ret (.mk ⟨rfl, differ⟩)

theorem setOperation_takes (h : scope.Swaps T) : Takes (setOperation scope) :=
  .of_accept rfl fun o => by
    cases o with
    | none => exact shortens_ret
    | some operator =>
      exact shortens_of_agreement ((term_related h.agrees none).bind fun query => .ret _)

def joined (left : Query) (operation : String × Query) : Query :=
  .binary left operation.1 operation.2

theorem foldl_joined_differs {q q' : Query} (differ : T.At Query.toJson q q')
    (operations : List (String × Query)) :
    T.At Query.toJson (operations.foldl joined q) (operations.foldl joined q') := by
  induction operations generalizing q q' with
  | nil => exact differ
  | cons o operations ih => exact ih (.field [] _ [] (.field [] _ [_, _] differ))

theorem operations_differ {os os' : List (String × Query)}
    (differ : OneOf (OperationsDiffer T) os os') (q : Query) : T.At Query.toJson (os.foldl joined q) (os'.foldl joined q) := by
  induction differ generalizing q with
  | @head o o' os differ =>
    obtain ⟨same, differ⟩ := differ
    refine foldl_joined_differs ?_ os
    unfold joined
    rw [same]
    exact .field [] _ [] (.field [_, _] _ [] differ)
  | tail o _ ih => exact ih (joined q o)

theorem query_swaps (h : scope.Swaps T) : T.Swaps (T.At Query.toJson) (query scope) := by
  have operations (first : Query) :=
    ((setOperation_swaps h).many (setOperation_takes h)).bind
      (fun operations => .ret (operations.foldl joined first))
      fun _ _ differ => .ret (operations_differ differ first)
  have carried (q q' : Query) (differ : T.At Query.toJson q q') :
      T.Carries (T.At Query.toJson) (do return (← many (setOperation scope)).foldl joined q)
        (do return (← many (setOperation scope)).foldl joined q') :=
    .bind fun operations => .ret (foldl_joined_differs differ operations)
  refine fun b => (commonTables_swaps h b).bind (fun tables => ?_) fun _ _ rest ran differ => ?_
  · exact (term_swaps h tables).bind operations carried
  · cases differ with
    | mk differ =>
      have selects := commonTables_select _ _ _ trivial ran rfl
      exact (term_carries differ selects).bind carried

theorem levelAt_swaps (tail : ∀ n floor, T.SwapsAt (Found T.Suffixes) (suffix (scopeAt n) floor) [])
    (n : Nat) : (levelAt n).Swaps T ∧ (scopeAt n).Swaps T := by
  induction n with
  | zero =>
    have here : (levelAt 0).Swaps T :=
      ⟨(levelAt_agrees False 0).1, fun _ _ => .error, fun _ => .error⟩
    exact ⟨here, here, nofun, (levelAt_agrees False 0).2, tail 0⟩
  | succ n ih =>
    have here : (levelAt (n + 1)).Swaps T := by
      refine ⟨(levelAt_agrees False (n + 1)).1, fun floor => ?_, ?_⟩
      · simpa only [levelAt, exprAt_succ] using expression_swaps ih.2 floor
      · simpa only [levelAt, queryAt_succ] using query_swaps ih.2
    refine ⟨here, here, fun level inside => ?_, (levelAt_agrees False (n + 1)).2, tail (n + 1)⟩
    exact Option.some.inj inside ▸ ih.1

end SqlQuery.Grammar
