import SqlQuery.Grammar.Query
import SqlQuery.Proofs.Atom.Expression

/-!
The rules for clauses and queries read the nodes that they give. Only a limit clause may hold its
parts in another order than they are written in.
-/

namespace SqlQuery

theorem Token.isCommand_unique {t : Token} {word other : String} (h : t.isCommand word = true)
    (h' : t.isCommand other = true) : word = other := by
  simp only [Token.isCommand, Bool.and_eq_true, beq_iff_eq] at h h'
  exact h.2.symm.trans h'.2

/-- An offset written before its limit, where their parameters are known to be in order. -/
theorem Yields.swap {ts rest : List Token} {ns : List Node} {limit offset : Expr}
    (h : Yields ts (ns ++ [Node.expr offset, .expr limit]) rest) :
    Yields ts (ns ++ [Node.limit ⟨some limit, some offset⟩]) rest where
  same := by
    have held : (Node.limit ⟨some limit, some offset⟩).atoms =
        (Node.expr limit).atoms ++ (Node.expr offset).atoms := by
      rw [Node.atoms_eq]
      simp [Node.ownAtoms, Node.children, Child.maybe, Child.each]
    refine h.same.trans ?_
    simp only [List.flatMap_append, List.flatMap_cons, List.flatMap_nil, List.append_nil, held]
    exact (List.perm_append_comm.append_left _).append_right _
  order := by
    intro increasing ordered
    have inside : (Node.limit ⟨some limit, some offset⟩).InOrder := ordered _ (by simp)
    have inOrder : ∀ n ∈ ns ++ [Node.expr offset, Node.expr limit], n.InOrder := by
      intro n mem
      simp only [List.mem_append, List.mem_cons, List.not_mem_nil, or_false] at mem
      rcases mem with before | rfl | rfl
      · exact ordered n (by simp [before])
      · exact Node.inOrder_child inside (c := ("offset", .expr offset))
          (by simp [Node.children, Child.maybe, Child.each])
      · exact Node.inOrder_child inside (c := ("limit", .expr limit))
          (by simp [Node.children, Child.maybe, Child.each])
    have read := h.order increasing inOrder
    have held : (Node.limit ⟨some limit, some offset⟩).parameters =
        (Node.expr limit).parameters ++ (Node.expr offset).parameters := by
      rw [Node.parameters, Node.atoms_eq]
      simp [Node.ownAtoms, Node.children, Child.maybe, Child.each, Node.parameters]
    have apart : (Node.expr offset).parameters ++ (Node.expr limit).parameters =
        (Node.expr limit).parameters ++ (Node.expr offset).parameters := by
      rcases List.eq_nil_or_concat (Node.expr limit).parameters with none | ⟨xs, x, limits⟩
      · simp [none]
      rcases List.eq_nil_or_concat (Node.expr offset).parameters with none | ⟨ys, y, offsets⟩
      · simp [none]
      have before : ordinalOf x < ordinalOf y := by
        refine Node.inOrder_limit inside x ?_ y ?_
        · simp [parametersOf, limits]
        · simp [parametersOf, offsets]
      have after : ordinalOf y < ordinalOf x := by
        rw [read, List.flatMap_append] at increasing
        have pairs := (List.pairwise_append.1 (List.pairwise_append.1 increasing).1).2.1
        simp only [List.flatMap_cons, List.flatMap_nil, List.append_nil] at pairs
        exact (List.pairwise_append.1 pairs).2.2 y (by simp [offsets]) x (by simp [limits])
      omega
    simpa [held, apart] using read
  suffix := h.suffix

namespace Grammar

open Rule

variable {level : Level} {scope : Scope} {ts : List Token} {ns : List Node}

theorem distinct_reads (h : level.Reads) : (distinct level).Reads fun o => o.toList.map .distinct := by
  intro ts ns
  refine (eatKeyword_quiet "distinct on").bind fun _ => ?_
  refine Triple.ite (fun _ => ?_) fun _ => ?_
  · refine openParen_quiet.bind fun _ => ?_
    refine (values_reads h ts ns).bind fun values => ?_
    refine closeParen_quiet.bind fun _ => Triple.ret fun rest yields => ?_
    have list : Yields ts (ns ++ [Node.expr (.list values)]) rest :=
      yields_exprs yields rfl (by simp [Node.children, Expr.children, Child.each])
    exact list.node rfl (by simp [Node.children, Distinct.children])
      (by simp [Node.children, Distinct.children])
  refine (eatKeyword_quiet "distinct").bind fun _ => ?_
  refine Triple.ite (fun _ => Triple.ret fun rest yields => ?_) fun _ => ?_
  · refine yields.leaf ?_
    rw [Node.atoms_eq]
    rfl
  refine (eatKeyword_quiet "all").bind fun _ => ?_
  exact Triple.ret fun rest yields => by simpa using yields

theorem selectItem_reads (h : level.Reads) : (selectItem level).Reads fun i => [.selectItem i] := by
  intro ts ns
  refine (h.expr 0 ts ns).bind fun value => ?_
  refine (eatKeyword_quiet "as").bind fun explicit => ?_
  refine (Quiet.look 0 _).bind fun named => ?_
  refine Triple.ite (fun _ => name_quiet.bind fun name => ?_) fun _ => ?_
  · refine Triple.ret fun rest yields => yields.node rfl ?_ ?_ <;>
      simp [Node.children, Child.maybe, Child.each, Node.atoms_identifier]
  · refine Triple.ret fun rest yields => yields.node rfl ?_ ?_ <;>
      simp [Node.children, Child.maybe, Child.each]

theorem selectClause_reads (h : level.Reads) : (selectClause level).Reads fun c => [.select c] := by
  intro ts ns
  refine (keyword_quiet "select").bind fun _ => ?_
  refine (distinct_reads h ts ns).bind fun distinct => ?_
  refine (Reads.commaMap (selectItem_reads h) ts _).bind fun items => Triple.ret fun rest yields => ?_
  rw [List.append_assoc] at yields
  refine yields.node rfl ?_ ?_ <;>
    simp [Node.children, Child.maybe, Child.each, Function.comp_def]

theorem qualifiedName_quiet : qualifiedName.Quiet := by
  intro ts ns
  refine name_quiet.bind fun name => ?_
  refine Triple.bind (Q := fun _ => Yields ts ns) ?_ fun names => Quiet.ret _ ts ns
  refine Triple.many (I := fun _ => Yields ts ns) fun _ => ?_
  refine Triple.after (R := Yields ts ns) ?_ ?_
  · refine (Quiet.eat (fun t h => Token.atoms_of_isKind h (by decide)) ts ns).post ?_
    intro b rest yields
    cases b <;> simpa using yields
  · exact (name_quiet ts ns).post fun name rest yields => by simpa using yields

theorem dataSource_reads (h : scope.Reads) : (dataSource scope).Reads fun d => [d.node] := by
  intro ts ns
  refine Quiet.bind (Quiet.eat fun t h => Token.atoms_of_isKind h (by decide)) fun _ => ?_
  refine Triple.ite (fun _ => Triple.map (h.enter (fun _ => nestedQuery_reads) ts ns)) fun _ => ?_
  refine qualifiedName_quiet.bind fun names => ?_
  refine (Quiet.look 0 _).bind fun isCall => ?_
  refine Triple.ite (fun _ => Triple.map (functionCall_reads h _ _ ts ns)) fun _ => ?_
  exact Triple.ret fun rest yields => yields.leaf (Node.atoms_table _)

theorem sourceAlias_quiet (isTable : Bool) : (sourceAlias isTable).Quiet := by
  intro ts ns
  refine (eatKeyword_quiet "as").bind fun explicit => ?_
  refine (Quiet.look 0 _).bind fun named => (Quiet.look 1 _).bind fun continues => ?_
  refine Triple.ite (fun _ => ?_) fun _ => Quiet.ret _ ts ns
  refine name_quiet.bind fun name => ?_
  exact columnNames_quiet.bind fun columns => Quiet.ret _ ts ns

theorem source_reads (h : scope.Reads) : (source scope).Reads fun s => [.source s] := by
  intro ts ns
  refine (dataSource_reads h ts ns).bind fun data => ?_
  refine (sourceAlias_quiet _).bind fun a => Triple.ret fun rest yields => yields.node rfl ?_ ?_
  · cases a <;> simp [Node.children, Child.maybe, Child.each, Node.atoms_sourceAlias]
  · simp [Node.children]

/-- What was read for the condition of a join. -/
def conditionNodes (condition : Option JoinCondition) : List Node :=
  (condition.toList.flatMap JoinCondition.children).map Prod.snd

theorem joinCondition_reads (h : level.Reads) : (joinCondition level).Reads conditionNodes := by
  intro ts ns
  refine (eatKeyword_quiet "on").bind fun _ => ?_
  refine Triple.ite (fun _ => ?_) fun _ => ?_
  · refine (h.expr 0 ts ns).bind fun condition => ?_
    exact Triple.ret fun rest yields => yields
  refine (eatKeyword_quiet "using").bind fun _ => ?_
  refine Triple.ite (fun _ => ?_) fun _ => Triple.ret fun rest yields => by
    simpa [conditionNodes] using yields
  refine nameList_quiet.bind fun names => Triple.ret fun rest yields => ?_
  refine Yields.leaves (by simpa using yields) ?_
  simp [conditionNodes, JoinCondition.children, Child.each, Node.atoms_identifier]

theorem join_reads (h : scope.Reads) : (join scope).Reads fun j => j.toList.map .join := by
  intro ts ns
  refine Quiet.bind (Quiet.accept ?_) fun kind => ?_
  · intro t a accepted
    unfold joinKind? at accepted
    split at accepted
    case isTrue comma => exact Token.atoms_of_isKind comma (by decide)
    split at accepted
    case isTrue both =>
      simp only [Bool.and_eq_true] at both
      exact Token.atoms_of_isKind both.1 (by decide)
    cases accepted
  cases kind with
  | none => exact Triple.ret fun rest yields => by simpa using yields
  | some kind =>
    refine (eatKeyword_quiet "lateral").bind fun lateral => ?_
    refine (source_reads h ts ns).bind fun source => ?_
    refine Triple.ite (fun _ => Triple.ret fun rest yields => yields.node rfl ?_ ?_) fun _ => ?_
    · simp [Node.children, Node.atoms_raw]
    · simp [Node.children]
    refine (joinCondition_reads h.here ts _).bind fun condition => Triple.ret fun rest yields => ?_
    rw [List.append_assoc] at yields
    refine yields.node rfl ?_ ?_
    · simp [Node.children, conditionNodes, Node.atoms_raw]
    · intro m mem
      simp only [conditionNodes, List.cons_append, List.nil_append, List.mem_cons] at mem
      simp only [Node.children, List.cons_append, List.nil_append, List.map_cons, List.mem_cons]
      exact .inr mem

theorem fromClause_reads (h : scope.Reads) : (fromClause scope).Reads fun f => [.fromClause f] := by
  intro ts ns
  refine (source_reads h ts ns).bind fun source => ?_
  refine (Reads.manyMap (join_reads h) ts _).bind fun joins => Triple.ret fun rest yields => ?_
  rw [List.append_assoc] at yields
  refine yields.node rfl ?_ ?_ <;> simp [Node.children, Child.each, Function.comp_def]

theorem boundedSpec_reads (h : level.Reads) : (boundedSpec level).Reads fun w => [.windowSpec w] := by
  intro ts ns
  refine (windowSpec_reads h ts ns).bind fun spec => ?_
  exact Triple.ite (fun _ => Triple.ret fun rest yields => yields) fun _ => Triple.fail

theorem windowDef_reads (h : scope.Reads) : (windowDef scope).Reads fun w => [.windowDef w] := by
  intro ts ns
  refine name_quiet.bind fun name => ?_
  refine (keyword_quiet "as").bind fun _ => ?_
  refine openParen_quiet.bind fun _ => ?_
  refine Triple.enter fun level inside => ?_
  refine (boundedSpec_reads (h.inside level inside) ts ns).bind fun spec => ?_
  refine closeParen_quiet.bind fun _ => Triple.ret fun rest yields => yields.node rfl ?_ ?_ <;>
    simp [Node.children, Node.atoms_identifier]

theorem eatRows_quiet : eatRows.Quiet := by
  intro ts ns
  refine (eatWord_quiet "rows").bind fun _ => ?_
  exact Triple.ite (fun _ => Quiet.ret _ ts ns) fun _ => eatWord_quiet "row" ts ns

theorem offset_reads (h : level.Reads) : (offset level).Reads fun o => o.toList.map .expr := by
  refine Reads.afterMap (eatKeyword_quiet "offset") fun ts ns => ?_
  refine (h.expr 0 ts ns).bind fun value => ?_
  exact eatRows_quiet.bind fun _ => Triple.ret fun rest yields => yields

theorem limit_reads (h : level.Reads) : (limit level).Reads fun l => l.toList.map .limit := by
  intro ts ns
  refine (eatKeyword_quiet "limit").bind fun _ => ?_
  refine Triple.ite (fun _ => ?_) fun _ => ?_
  · refine (h.expr 0 ts ns).bind fun limit => ?_
    refine (offset_reads h ts _).bind fun offset => Triple.ret fun rest yields => ?_
    rw [List.append_assoc] at yields
    refine yields.node rfl ?_ ?_ <;>
      simp [Node.children, Child.maybe, Child.each, Function.comp_def]
  · refine (offset_reads h ts ns).bind fun offset => ?_
    cases offset with
    | none => exact Triple.ret fun rest yields => by simpa using yields
    | some offset =>
      refine (Reads.afterMap (eatKeyword_quiet "limit") (h.expr 0) ts _).bind fun limit => ?_
      refine Triple.ret fun rest yields => ?_
      rw [List.append_assoc] at yields
      cases limit with
      | some limit => exact Yields.swap yields
      | none =>
        refine yields.node rfl ?_ ?_ <;> simp [Node.children, Child.maybe, Child.each]

theorem fetchCount_reads (h : level.Reads) :
    (fetchCount level).Reads fun o => o.toList.map .expr := by
  intro ts ns
  refine (Quiet.look 0 _).bind fun _ => ?_
  refine Triple.ite (fun _ => Triple.ret fun rest yields => by simpa using yields) fun _ => ?_
  exact Triple.map (h.expr 0 ts ns)

theorem requireRows_quiet : requireRows.Quiet := by
  intro ts ns
  refine eatRows_quiet.bind fun found => ?_
  cases found with
  | true => exact Quiet.ret () ts ns
  | false => exact Triple.fail

theorem fetchUnit_quiet (percent : Bool) : (fetchUnit percent).Quiet := by
  intro ts ns
  refine (eatWord_quiet "only").bind fun _ => ?_
  refine Triple.ite (fun _ => ?_) fun _ => ?_
  · exact Quiet.ret (if percent then FetchUnit.percent else .rowsOnly) ts ns
  refine Triple.ite (fun _ => Triple.fail) fun _ => ?_
  refine (eatKeyword_quiet "with").bind fun _ => ?_
  refine Triple.ite (fun _ => ?_) fun _ => Triple.fail
  exact (word_quiet "ties").bind fun _ => Quiet.ret _ ts ns

theorem fetch_reads (h : level.Reads) : (fetch level).Reads fun f => [.fetch f] := by
  intro ts ns
  refine Quiet.bind (Quiet.expect ?_) fun position => ?_
  · intro t a accepted
    unfold fetchPosition? at accepted
    split at accepted
    case isTrue word => exact Token.atoms_of_isWord word
    split at accepted
    case isTrue word => exact Token.atoms_of_isWord word
    cases accepted
  refine (fetchCount_reads h ts ns).bind fun count => ?_
  refine (eatWord_quiet "percent").bind fun percent => ?_
  refine requireRows_quiet.bind fun _ => ?_
  refine (fetchUnit_quiet percent).bind fun unit => ?_
  refine Triple.ret fun rest yields => yields.node rfl ?_ ?_ <;>
    simp [Node.children, Child.maybe, Child.each, Function.comp_def]

theorem lock_quiet : lock.Quiet := by
  intro ts ns
  refine (eatWord_quiet "update").bind fun _ => ?_
  refine Triple.ite (fun _ => Quiet.ret _ ts ns) fun _ => ?_
  refine (eatWord_quiet "share").bind fun _ => ?_
  refine Triple.ite (fun _ => Quiet.ret _ ts ns) fun _ => ?_
  refine (eatWord_quiet "no").bind fun _ => ?_
  refine Triple.ite (fun _ => ?_) fun _ => ?_
  · refine (word_quiet "key").bind fun _ => ?_
    exact (word_quiet "update").bind fun _ => Quiet.ret _ ts ns
  refine (eatWord_quiet "key").bind fun _ => ?_
  refine Triple.ite (fun _ => ?_) fun _ => Triple.fail
  exact (word_quiet "share").bind fun _ => Quiet.ret _ ts ns

theorem row_reads (h : level.Reads) : (row level).Reads fun es => [.expr (.tuple es)] := by
  intro ts ns
  refine openParen_quiet.bind fun _ => ?_
  refine (values_reads h ts ns).bind fun values => ?_
  refine closeParen_quiet.bind fun _ => Triple.ret fun rest yields => ?_
  exact yields_exprs yields rfl (by simp [Node.children, Expr.children, Child.each])

theorem filter_reads (h : level.Reads) : (level.expr 0).Reads fun e => [.filter e] := by
  intro ts ns
  exact (h.expr 0 ts ns).post fun e rest yields => yields.node rfl (by simp [Node.children])
    (by simp [Node.children])

theorem having_reads (h : level.Reads) : (level.expr 0).Reads fun e => [.having e] := by
  intro ts ns
  exact (h.expr 0 ts ns).post fun e rest yields => yields.node rfl (by simp [Node.children])
    (by simp [Node.children])

theorem groupBy_reads (h : level.Reads) : (values level).Reads fun es => [.groupBy es] := by
  intro ts ns
  exact (values_reads h ts ns).post fun es rest yields =>
    yields_exprs yields rfl (by simp [Node.children, Child.each])

theorem windows_reads (h : scope.Reads) :
    (commaList (windowDef scope)).Reads fun ws => [.windows ws] := by
  intro ts ns
  refine (Reads.commaMap (windowDef_reads h) ts ns).post fun ws rest yields => ?_
  exact yields.node rfl (by simp [Node.children, Child.each, Function.comp_def])
    (by simp [Node.children, Child.each, Function.comp_def])

theorem lockNode_reads : lock.Reads fun mode => [.lock mode] := by
  intro ts ns
  refine (lock_quiet ts ns).post fun mode rest yields => Yields.leaf (by simpa using yields) ?_
  rw [Node.atoms_eq]
  rfl

/-- What was read for the common tables of a query. -/
def tableNodes (tables : Option With) : List Node := tables.toList.map .commonTables

theorem simpleSelect_reads (h : scope.Reads) (tables : Option With) :
    Triple (Yields ts (ns ++ tableNodes tables)) (simpleSelect scope tables)
      fun s => Yields ts (ns ++ [Node.query (.simple s)]) := by
  have level := h.here
  refine (selectClause_reads level ts _).bind fun clause => ?_
  refine (Reads.afterMap (eatKeyword_quiet "from") (fromClause_reads h) ts _).bind fun source => ?_
  refine (Reads.afterMap (eatKeyword_quiet "where") (filter_reads level) ts _).bind
    fun condition => ?_
  refine (Reads.afterMap (eatKeyword_quiet "group by") (groupBy_reads level) ts _).bind
    fun groupBy => ?_
  refine (Reads.afterMap (eatKeyword_quiet "having") (having_reads level) ts _).bind fun having => ?_
  refine (Reads.afterMap (eatKeyword_quiet "window") (windows_reads h) ts _).bind fun windows => ?_
  refine (orderBy_reads level ts _).bind fun orderBy => ?_
  refine (limit_reads level ts _).bind fun limit => ?_
  refine (Reads.afterMap (eatKeyword_quiet "fetch") (fetch_reads level) ts _).bind fun fetch => ?_
  refine (Reads.afterMap (eatKeyword_quiet "for") lockNode_reads ts _).bind fun lock => ?_
  refine Triple.ret fun rest yields => ?_
  simp only [List.append_assoc] at yields
  refine yields.node rfl ?_ ?_ <;>
    simp [Node.children, Query.children, Select.children, Child.maybe, Child.each, tableNodes,
      Function.comp_def]

/-- Common tables have been read, and a select follows them. -/
def Opened (ts : List Token) (ns : List Node) (tables : Option With) (rest : List Token) : Prop :=
  Yields ts (ns ++ tableNodes tables) rest ∧
    (tables.isSome → rest[0]?.any fun t => t.isCommand "select")

theorem term_reads (h : scope.Reads) (tables : Option With) :
    Triple (Opened ts ns tables) (term scope tables) fun q => Yields ts (ns ++ [Node.query q]) := by
  refine Triple.bind (Q := fun isValues rest => Yields ts (ns ++ tableNodes tables) rest ∧
    (isValues = true → tables = none)) (Triple.eat ?_ ?_) fun isValues => ?_
  · rintro t rest ⟨yields, select⟩ isValues
    refine ⟨yields.skip (Token.atoms_of_isCommand isValues), fun _ => ?_⟩
    cases tables with
    | none => rfl
    | some tables => exact absurd (Token.isCommand_unique isValues (select rfl)) (by decide)
  · rintro rest ⟨yields, _⟩ _
    exact ⟨yields, by simp⟩
  refine Triple.ite (fun found => Triple.map ?_) fun _ => Triple.map ?_
  · refine ((Reads.commaMap (row_reads h.here) ts ns).pre ?_).post ?_
    · rintro rest ⟨yields, none⟩
      simpa [none found, tableNodes] using yields
    · intro rows rest yields
      refine yields.node rfl ?_ ?_ <;>
        simp [Node.children, Query.children, Child.each, Function.comp_def]
  · exact (simpleSelect_reads h tables).pre fun rest before => before.1

theorem materialized_quiet : materialized.Quiet := by
  intro ts ns
  refine (eatKeyword_quiet "materialized").bind fun _ => ?_
  refine Triple.ite (fun _ => Quiet.ret _ ts ns) fun _ => ?_
  refine (eatKeyword_quiet "not materialized").bind fun _ => ?_
  exact Triple.ite (fun _ => Quiet.ret _ ts ns) fun _ => Quiet.ret _ ts ns

theorem commonTable_reads (h : scope.Reads) :
    (commonTable scope).Reads fun t => [.commonTable t] := by
  intro ts ns
  refine name_quiet.bind fun name => ?_
  refine columnNames_quiet.bind fun columns => ?_
  refine (keyword_quiet "as").bind fun _ => ?_
  refine materialized_quiet.bind fun materialized => ?_
  refine openParen_quiet.bind fun _ => ?_
  refine (h.enter (fun _ => nestedQuery_reads) ts ns).bind fun query => ?_
  refine Triple.ret fun rest yields => yields.node rfl ?_ ?_ <;>
    simp [Node.children, Node.atoms_sourceAlias]

theorem commonTables_reads (h : scope.Reads) :
    Triple (Yields ts ns) (commonTables scope) (Opened ts ns) := by
  refine Triple.after (R := Yields ts ns) ?_ ?_
  · refine (eatKeyword_quiet "with" ts ns).post fun b rest yields => ?_
    cases b <;> simpa [Opened, tableNodes] using yields
  refine (eatKeyword_quiet "recursive").bind fun recursive => ?_
  refine (Reads.commaMap (commonTable_reads h) ts ns).bind fun tables => ?_
  refine Triple.bind (Triple.look (Q := fun b rest =>
    Yields ts (ns ++ tables.map .commonTable) rest ∧
      b = rest[0]?.any fun t => t.isCommand "select") fun rest yields => ⟨yields, rfl⟩) ?_
  intro selects
  refine Triple.ite (fun found => Triple.ret ?_) fun _ => Triple.fail
  rintro rest ⟨yields, same⟩
  refine ⟨yields.node rfl ?_ ?_, fun _ => by rw [← same, found]⟩ <;>
    simp [Node.children, Child.each, Function.comp_def]

theorem setOperation_reads (h : scope.Reads) :
    (setOperation scope).Reads fun o => o.toList.map fun operation => .query operation.2 := by
  intro ts ns
  refine Quiet.bind (Quiet.accept ?_) fun operator => ?_
  · intro t a accepted
    by_cases command : t.kind = .command
    · simp [Token.atoms, command]
    · simp [isKind, command] at accepted
  cases operator with
  | none => exact Triple.ret fun rest yields => by simpa using yields
  | some operator =>
    have operand : Triple (Yields ts ns) (term scope none)
        fun right => Yields ts (ns ++ [Node.query right]) := by
      refine (term_reads h none).pre fun rest yields => ?_
      simpa [Opened, tableNodes] using yields
    refine Triple.bind (operand.pre fun rest yields => by simpa using yields) fun right => ?_
    exact Triple.ret fun rest yields => yields

/-- The operations read so far make up one query. -/
theorem yields_operations {first : Query} {operations : List (String × Query)} {rest : List Token}
    (h : Yields ts (ns ++ .query first :: operations.map fun operation => .query operation.2) rest) :
    Yields ts (ns ++ [Node.query (operations.foldl
      (fun left (operator, right) => .binary left operator right) first)]) rest := by
  induction operations generalizing first with
  | nil => exact h
  | cons operation operations ih =>
    refine ih ?_
    obtain ⟨operator, right⟩ := operation
    have parts : Yields ts (ns ++ ([Node.query first, .query right] ++
        operations.map fun operation => .query operation.2)) rest := h
    refine parts.replace ?_ ?_
    · rw [List.flatMap_cons, List.flatMap_append, Node.atoms_eq]
      simp [Node.ownAtoms, Node.children, Query.children, Node.atoms_raw]
    · intro ordered n mem
      have whole := ordered (.query (.binary first operator right)) (by simp)
      simp only [List.cons_append, List.nil_append, List.mem_cons] at mem
      rcases mem with rfl | rfl | later
      · exact Node.inOrder_child whole (c := ("left", .query first))
          (by simp [Node.children, Query.children])
      · exact Node.inOrder_child whole (c := ("right", .query right))
          (by simp [Node.children, Query.children])
      · exact ordered n (List.mem_cons_of_mem _ later)

theorem query_reads (h : scope.Reads) : (query scope).Reads fun q => [.query q] := by
  intro ts ns
  refine (commonTables_reads h).bind fun tables => ?_
  refine (term_reads h tables).bind fun first => ?_
  refine (Reads.manyMap (setOperation_reads h) ts _).bind fun operations => ?_
  refine Triple.ret fun rest yields => yields_operations ?_
  simpa [List.append_assoc] using yields

theorem levelAt_reads (n : Nat) : (levelAt n).Reads ∧ (scopeAt n).Reads := by
  refine levelAt_invariant (fun _ => Scope.Reads.mk) ⟨?_, ?_⟩ (fun s scope => ?_) n
  · exact fun _ _ _ _ _ _ _ run => by cases run
  · exact fun _ _ _ _ _ _ run => by cases run
  · exact ⟨expression_reads scope, query_reads scope⟩

theorem queryAt_reads (n : Nat) : Reads (queryAt n) fun q => [.query q] := (levelAt_reads n).1.query

/-- A statement holds all that its tokens hold. -/
theorem statementAt_reads (n : Nat) :
    Triple (· = ts) (statementAt n) fun q _ => Yields ts [.query q] [] := by
  refine Triple.bind ((queryAt_reads n ts []).pre ?_) fun query => ?_
  · rintro rest rfl
    exact Yields.refl _
  refine Quiet.bind (Quiet.eat ?_) fun _ => ?_
  · intro t semicolon
    have kind : t.kind = .operator := by
      simp only [Token.isOperator, Bool.and_eq_true, beq_iff_eq] at semicolon
      exact semicolon.1
    simp [Token.atoms, kind]
  refine Triple.bind (Triple.peek (Q := fun o rest =>
    Yields ts [.query query] rest ∧ o = rest.head?) fun rest yields => ⟨yields, rfl⟩) fun next => ?_
  refine Triple.ite (fun _ => Triple.stop) fun ended => Triple.ret ?_
  rintro rest ⟨yields, same⟩
  cases rest with
  | nil => exact yields
  | cons t rest => simp [same] at ended

end Grammar

end SqlQuery
