import SqlQuery.Proofs.Parser.Expression

/-!
The parser of queries follows the grammar, and so a session comes to what the grammar says of its
tokens: with the levels it may still open, and wherever it stands.
-/

namespace SqlQuery

namespace Parser

open Grammar (levelAt scopeAt)

variable {fuel : Nat} {calls : Calls}

theorem distinct_follows (h : calls.Follow fuel) :
    Follows fuel (distinct calls) fun n => Grammar.distinct (levelAt n) := by
  apply (Follows.eat _).choose
  · apply (Follows.require _ _).bind
    intro _
    exact (values_follows h).bind fun values => closeParen_follows.bind fun _ => .ret _
  exact (Follows.eat _).choose (.ret _) ((Follows.eat _).bind fun _ => .ret _)

theorem selectItem_follows (h : calls.Follow fuel) :
    Follows fuel (selectItem calls) fun n => Grammar.selectItem (levelAt n) := by
  apply (h.expr 0).bind
  intro value
  apply (Follows.eat _).bind
  intro explicit
  apply (Follows.check _).bind
  intro named
  exact .ite (Follows.name.bind fun name => .ret _) (.ret _)

theorem selectClause_follows (h : calls.Follow fuel) :
    Follows fuel (selectClause calls) fun n => Grammar.selectClause (levelAt n) :=
  (Follows.require _ _).bind fun _ => (distinct_follows h).bind fun distinct =>
    (selectItem_follows h).commaList.bind fun items => .ret (SelectClause.mk distinct items)

theorem qualifiedName_follows : Follows fuel qualifiedName fun _ => Grammar.qualifiedName := by
  apply Follows.name.bind
  intro first
  exact (((Follows.eat _).after .name).gather_list [first]).congr fun _ => rfl

theorem dataSource_follows (h : calls.Follow fuel) :
    Follows fuel (dataSource calls) fun n => Grammar.dataSource (scopeAt n) := by
  apply (Follows.eat _).choose
  · exact .enter_map (nestedQuery_closes h fun query => .ret _)
  apply qualifiedName_follows.bind
  intro names
  exact (Follows.check _).choose ((functionCall_follows h _ _).map _) (.ret _)

theorem sourceAlias_follows (isTable : Bool) :
    Follows fuel (sourceAlias isTable) fun _ => Grammar.sourceAlias isTable := by
  apply (Follows.eat _).bind
  intro explicit
  apply (Follows.check _).bind
  intro named
  apply (Follows.look 1 _).bind
  intro continues
  exact .ite (Follows.name.bind fun name => Follows.columnNames.bind fun columns => .ret _) (.ret none)

theorem source_follows (h : calls.Follow fuel) :
    Follows fuel (source calls) fun n => Grammar.source (scopeAt n) :=
  (dataSource_follows h).bind fun data =>
    (sourceAlias_follows _).bind fun shown => .ret (Source.mk data shown)

theorem joinCondition_follows (h : calls.Follow fuel) :
    Follows fuel (joinCondition calls) fun n => Grammar.joinCondition (levelAt n) := by
  apply (Follows.eat _).choose ((h.expr 0).bind fun condition => .ret _)
  exact (Follows.eat _).choose (Follows.nameList.bind fun names => .ret _) (.ret none)

theorem join_follows (h : calls.Follow fuel) :
    Follows fuel (join calls) fun n => Grammar.join (scopeAt n) := by
  have condition := joinCondition_follows h
  simp only [← scopeAt_here] at condition
  apply (Follows.accept _).bind
  intro found
  cases found with
  | none => exact .ret none
  | some found =>
    apply (Follows.eat _).bind
    intro lateral
    apply (source_follows h).bind
    intro source
    exact .ite (.ret _) (condition.bind fun condition => .ret _)

theorem fromClause_follows (h : calls.Follow fuel) :
    Follows fuel (fromClause calls) fun n => Grammar.fromClause (scopeAt n) := by
  have joins := (join_follows h).gather_list []
  simp only [List.nil_append, id_map'] at joins
  exact (source_follows h).bind fun source => joins.bind fun joins => .ret (From.mk source joins)

theorem windowDef_follows (h : calls.Follow fuel) :
    Follows fuel (windowDef calls) fun n => Grammar.windowDef (scopeAt n) := by
  apply Follows.name.bind
  intro name
  apply (Follows.require _ _).bind
  intro _
  apply (Follows.require _ _).bind
  intro _
  apply Follows.enter_last
  simp only [Grammar.boundedSpec, bind_assoc]
  apply Closes.bind (windowSpec_follows h)
  intro spec
  by_cases bounded : spec.hasBounds
  · simp only [if_pos bounded, pure_bind]
    exact .bind closeParen_follows fun _ => .leave h.leave (.ret _)
  · simp only [if_neg bounded]
    exact .fail _

theorem eatRows_follows : Follows fuel eatRows fun _ => Grammar.eatRows :=
  (Follows.eat _).choose (.ret true) (.eat _)

theorem offset_follows (h : calls.Follow fuel) :
    Follows fuel (offset calls) fun n => Grammar.offset (levelAt n) :=
  (Follows.eat _).after ((h.expr 0).bind fun value => eatRows_follows.bind fun _ => .ret value)

theorem limit_follows (h : calls.Follow fuel) :
    Follows fuel (limit calls) fun n => Grammar.limit (levelAt n) := by
  apply (Follows.eat _).choose
  · exact (h.expr 0).bind fun limit => (offset_follows h).bind fun offset => .ret _
  apply (offset_follows h).bind
  intro found
  cases found with
  | none => exact .ret none
  | some offset => exact ((Follows.eat _).after (h.expr 0)).bind fun limit => .ret _

theorem fetchCount_follows (h : calls.Follow fuel) :
    Follows fuel (fetchCount calls) fun n => Grammar.fetchCount (levelAt n) :=
  (Follows.check _).choose (.ret none) ((h.expr 0).map some)

theorem requireRows_follows : Follows fuel requireRows fun _ => Grammar.requireRows :=
  eatRows_follows.choose (.ret ()) (.fail _)

theorem fetchUnit_follows (percent : Bool) :
    Follows fuel (fetchUnit percent) fun _ => Grammar.fetchUnit percent := by
  apply (Follows.eat _).choose (.ret _)
  apply Follows.ite (.fail _)
  exact (Follows.eat _).choose ((Follows.require _ _).bind fun _ => .ret _) (.fail _)

theorem fetch_follows (h : calls.Follow fuel) :
    Follows fuel (fetch calls) fun n => Grammar.fetch (levelAt n) := by
  apply (Follows.expect _ _).bind
  intro position
  apply (fetchCount_follows h).bind
  intro count
  apply (Follows.eat _).bind
  intro percent
  exact requireRows_follows.bind fun _ => (fetchUnit_follows percent).bind fun unit => .ret _

theorem lock_follows : Follows fuel lock fun _ => Grammar.lock := by
  apply (Follows.eat _).choose (.ret _)
  apply (Follows.eat _).choose (.ret _)
  apply (Follows.eat _).choose
  · exact (Follows.require _ _).bind fun _ => (Follows.require _ _).bind fun _ => .ret _
  exact (Follows.eat _).choose ((Follows.require _ _).bind fun _ => .ret _) (.fail _)

theorem row_follows (h : calls.Follow fuel) :
    Follows fuel (row calls) fun n => Grammar.row (levelAt n) :=
  (Follows.require _ _).bind fun _ => (values_follows h).bind fun values =>
    closeParen_follows.bind fun _ => .ret values

theorem simpleSelect_follows (h : calls.Follow fuel) (commonTables : Option With) :
    Follows fuel (simpleSelect calls commonTables) fun n =>
      Grammar.simpleSelect (scopeAt n) commonTables := by
  simp only [Grammar.simpleSelect, scopeAt_here]
  apply (selectClause_follows h).bind
  intro clause
  apply ((Follows.eat _).after (fromClause_follows h)).bind
  intro source
  apply ((Follows.eat _).after (h.expr 0)).bind
  intro condition
  apply ((Follows.eat _).after (values_follows h)).bind
  intro groupBy
  apply ((Follows.eat _).after (h.expr 0)).bind
  intro having
  apply ((Follows.eat _).after (windowDef_follows h).commaList).bind
  intro windows
  apply (orderBy_follows h).bind
  intro orderBy
  apply (limit_follows h).bind
  intro limit
  apply ((Follows.eat _).after (fetch_follows h)).bind
  intro fetch
  exact ((Follows.eat _).after lock_follows).bind fun lock => .ret _

theorem term_follows (h : calls.Follow fuel) (commonTables : Option With) :
    Follows fuel (term calls commonTables) fun n => Grammar.term (scopeAt n) commonTables := by
  have rows := (row_follows h).commaList
  simp only [← scopeAt_here] at rows
  exact (Follows.eat _).choose (rows.map _) ((simpleSelect_follows h commonTables).map _)

theorem materialized_follows : Follows fuel materialized fun _ => Grammar.materialized :=
  (Follows.eat _).choose (.ret _) ((Follows.eat _).choose (.ret _) (.ret _))

theorem commonTable_follows (h : calls.Follow fuel) :
    Follows fuel (commonTable calls) fun n => Grammar.commonTable (scopeAt n) := by
  apply Follows.name.bind
  intro name
  apply Follows.columnNames.bind
  intro columns
  apply (Follows.require _ _).bind
  intro _
  apply materialized_follows.bind
  intro materialized
  apply (Follows.require _ _).bind
  intro _
  exact .enter (nestedQuery_closes h fun query => .ret _)

theorem commonTables_follows (h : calls.Follow fuel) :
    Follows fuel (commonTables calls) fun n => Grammar.commonTables (scopeAt n) := by
  apply (Follows.eat _).after
  apply (Follows.eat _).bind
  intro recursive
  apply (commonTable_follows h).commaList.bind
  intro tables
  exact (Follows.check _).choose (.ret _) (.fail _)

theorem setOperation_follows (h : calls.Follow fuel) :
    Follows fuel (setOperation calls) fun n => Grammar.setOperation (scopeAt n) := by
  apply (Follows.accept _).bind
  intro found
  cases found with
  | none => exact .ret none
  | some operator => exact (term_follows h none).bind fun query => .ret _

theorem query_follows (h : calls.Follow fuel) :
    Follows fuel (query calls) fun n => Grammar.query (scopeAt n) := by
  apply (commonTables_follows h).bind
  intro tables
  apply (term_follows h tables).bind
  intro first
  exact ((setOperation_follows h).gather _ first).congr fun n => rfl

/-- A level that is opened and closed by hand around all of a rule, whatever comes of it. -/
theorem nested_follows {α : Type} {p : Parser α} {rule levels : Nat → Rule α} {leave : Parser Unit}
    (leaves : ClosesOpen leave) (h : Follows fuel p rule)
    (zero : ∀ ts, levels 0 ts = .error ⟨.tooDeep, ts, 1⟩) (succ : ∀ n, levels (n + 1) = rule n) :
    Follows (fuel + 1) (nested leave p) levels := by
  intro s within enough
  cases left : s.allowance with
  | zero =>
    refine ⟨.error (.tooDeep, 1), 0, zero _, ?_⟩
    rw [nested, bind_error (Follows.enter_refused left), Session.reached, Session.skip_zero within]
    rfl
  | succ n =>
    let inner : Session := { s with depth := s.depth + 1 }
    have below : inner.allowance = n := s.allowance_deeper left
    obtain ⟨o, k, ran, there⟩ := h inner within (by omega)
    have inside : rule n s.rest = o.after k s.rest := below ▸ ran
    have tried : attempt p inner = (.ok (inner.reached k o).1, (inner.reached k o).2) := by
      rw [attempt, there]
    refine ⟨o, k, by rw [succ, inside], ?_⟩
    rw [nested, bind_ok (Follows.enter_opens left), bind_ok tried]
    cases o with
    | ok a =>
      rw [bind_ok (leaves _ (Nat.succ_pos s.depth))]
      rfl
    | error e =>
      have closed : s.depth + 1 + e.2 - 1 = s.depth + e.2 := by omega
      have opened : 0 < s.depth + 1 + e.2 := by omega
      rw [bind_ok (leaves _ opened)]
      exact congrArg (fun depth => (_, { s.skip k with depth := depth })) closed

/-- By induction on how deep calls are nested: what the parser calls follows the levels of the grammar. -/
theorem callsWithin_follow {leave : Parser Unit}
    (leaves : ClosesOpen leave) (fuel : Nat) :
    (callsWithin leave fuel).Follow fuel := by
  induction fuel with
  | zero => exact ⟨fun _ _ _ few => absurd few (Nat.not_lt_zero _), fun _ _ few =>
      absurd few (Nat.not_lt_zero _), leaves⟩
  | succ fuel ih =>
    refine ⟨fun floor => ?_, ?_, leaves⟩
    · have refused (ts : List Token) : (levelAt 0).expr floor ts = .error ⟨.tooDeep, ts, 1⟩ := by
        simp only [levelAt, Grammar.exprAt]
      exact nested_follows leaves (expression_follows ih floor) refused fun n =>
        Grammar.exprAt_succ n floor
    · have refused (ts : List Token) : (levelAt 0).query ts = .error ⟨.tooDeep, ts, 1⟩ := by
        simp only [levelAt, Grammar.queryAt]
      exact nested_follows leaves (query_follows ih) refused Grammar.queryAt_succ

/-- A lexeme that is left after a query is trailing, and is told. -/
theorem end_follows {α : Type} (a : α) :
    Follows fuel (current >>= fun found => match found with
        | some l => failWith fun s => .trailing s.index l.position l.text
        | none => pure a)
      fun _ => Rule.peek >>= fun found => if found.isSome then Rule.stop .trailing else pure a := by
  intro s within enough
  have here : current s = (.ok s.next?, s) := rfl
  rw [bind_ok here]
  cases next : s.next? with
  | none =>
    have empty : s.rest.head? = none := by rw [Session.rest_head?, next]; rfl
    refine ⟨.ok a, 0, ?_, ?_⟩
    · change (if s.rest.head?.isSome then Rule.stop .trailing else pure a : Rule α) s.rest = _
      rw [empty]
      rfl
    · rw [Session.reached, Session.skip_zero within]
      rfl
  | some l =>
    have head : s.rest.head? = some l.toToken := by rw [Session.rest_head?, next]; rfl
    refine ⟨.error (.trailing, 0), 0, ?_, ?_⟩
    · change (if s.rest.head?.isSome then Rule.stop .trailing else pure a : Rule α) s.rest = _
      rw [head]
      rfl
    · simp only [Session.reached, Session.skip_zero within, Session.errorAt, Session.place, next]
      rfl

theorem statement_follows (h : calls.Follow fuel) :
    Follows fuel (statement calls) Grammar.statementAt := by
  apply h.query.bind
  intro query
  apply (Follows.eat _).bind
  intro _
  exact end_follows query

end Parser

namespace Session

/-- What a session comes to, whatever its calls are nested to beyond the levels that may be opened, and
however levels are closed where none is open. -/
theorem queryWithin_eq {leave : Parser Unit} (leaves : Parser.ClosesOpen leave)
    {s : Session} (within : s.Within) {fuel : Nat} (enough : s.allowance < fuel) :
    (Parser.callsWithin leave fuel).query s = s.run (Grammar.queryAt s.allowance) :=
  (Parser.callsWithin_follow leaves fuel).query.run_eq within enough

theorem statementWithin_eq {leave : Parser Unit} (leaves : Parser.ClosesOpen leave)
    {s : Session} (within : s.Within) {fuel : Nat} (enough : s.allowance < fuel) :
    Parser.statement (Parser.callsWithin leave fuel) s = s.run (Grammar.statementAt s.allowance) :=
  (Parser.statement_follows (Parser.callsWithin_follow leaves fuel)).run_eq within enough

theorem query_eq_run {s : Session} (within : s.Within) :
    s.query = s.run (Grammar.queryAt s.allowance) :=
  queryWithin_eq (fun _ _ => rfl) within (Nat.lt_succ_self _)

theorem statement_eq_run {s : Session} (within : s.Within) :
    s.statement = s.run (Grammar.statementAt s.allowance) :=
  statementWithin_eq (fun _ _ => rfl) within (Nat.lt_succ_self _)

theorem start_within (lexemes : List Lexeme) (limit : Nat) : (start lexemes limit).Within :=
  Nat.zero_le _

theorem query_start (lexemes : List Lexeme) (limit : Nat) :
    (start lexemes limit).query = (start lexemes limit).run (Grammar.queryAt limit) :=
  query_eq_run (start_within lexemes limit)

theorem statement_start (lexemes : List Lexeme) (limit : Nat) :
    (start lexemes limit).statement = (start lexemes limit).run (Grammar.statementAt limit) :=
  statement_eq_run (start_within lexemes limit)

theorem statement_eq_ok {lexemes : List Lexeme} {limit : Nat} {query : Query} :
    (start lexemes limit).statement.1 = .ok query ↔
      ∃ rest, Grammar.statementAt limit (Lexeme.tokens lexemes) = .ok (query, rest) := by
  rw [statement_start]
  constructor
  · exact run_eq_ok
  · rintro ⟨rest, read⟩
    have ran : Grammar.statementAt limit (start lexemes limit).rest =
        .ok (query, rest) := read
    rw [run, ran]

end Session

/-- A text is read as the grammar reads the tokens of its lexemes. -/
theorem Query.parse_eq_run (text : String) (limit : Nat) : Query.parse text limit =
    match (scan text).2 with
    | .error error => .error (.scan error)
    | .ok lexemes => ((Session.start lexemes limit).run (Grammar.statementAt limit)).1 := by
  unfold Query.parse
  cases (scan text).2 with
  | error error => rfl
  | ok lexemes => exact congrArg Prod.fst (Session.statement_start lexemes limit)

end SqlQuery
