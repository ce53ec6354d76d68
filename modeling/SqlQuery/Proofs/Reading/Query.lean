import SqlQuery.Proofs.Reading.Limit

/-!
Queries are read back. Set operations group to the left, so what is said of a query is said with the
operations still to come.
-/

namespace SqlQuery.Grammar

open Rule

variable {d : Dialect} {scope : Scope} {level : Level} {rest : List Token}

def fromTokens (d : Dialect) (f : From) : List Token :=
  Mark.read (f.source.marks d) ++ f.joins.flatMap fun j => Mark.read (j.marks d)

theorem read_from (o : Option From) :
    Mark.read (fromMarks d o) = optional "from" (fromTokens d) o := by
  have keyword : (Mark.plain "from").tokens = [keywordToken "from"] := by decide
  cases o with
  | none => rfl
  | some f =>
    obtain ⟨source, joins⟩ := f
    simp [fromMarks, From.marks, optional, fromTokens, keyword, joinsMarks_eq, List.flatMap_map]

structure FromReads (d : Dialect) (scope : Scope) (f : From) : Prop where
  source : SourceReads d scope f.source
  joins : ∀ j ∈ f.joins, JoinReads d scope j

theorem head_join {j : Join} (kind : j.kind ∈ joinKinds) (ts : List Token) :
    HeadIn joinTokens (Mark.read (j.marks d) ++ ts) := by
  simp only [tokens_join kind, List.cons_append]
  exact .cons (List.mem_append_left _ (List.mem_append_left _ (List.mem_map_of_mem kind))) _

theorem head_later (follow : HeadIn (laterTokens 1) rest) : HeadIn joinTokens rest := by
  refine follow.mono fun t mem => ?_
  rw [joinTokens, List.append_assoc]
  exact List.mem_append_right _ mem

theorem fromClause_gives {f : From} (h : FromReads d scope f)
    (follow : HeadIn (laterTokens 1) rest) :
    (fromClause scope).Gives (fromTokens d f ++ rest) f rest := by
  obtain ⟨source, joins⟩ := f
  have ends : ∀ t ∈ laterTokens 1, joinKind? t = none := by decide
  have joinsRead : Yielding (join scope)
      (joins.flatMap (fun j => Mark.read (j.marks d)) ++ rest) joins rest := by
    refine .of_each (HeadIn joinTokens) (fun j mem => ?_) (fun j mem ts follow => ?_)
      (fun j mem ts => ?_) ?_ ?_
    · rw [tokens_join (h.joins j mem).kind]
      exact List.cons_ne_nil _ _
    · exact join_gives (h.joins j mem) follow
    · exact head_join (h.joins j mem).kind ts
    · exact head_later follow
    · exact (Gives.accept_none fun t head => ends t (follow t head)).bind (Gives.ret _ _)
  have head : HeadIn joinTokens (joins.flatMap (fun j => Mark.read (j.marks d)) ++ rest) := by
    cases joins with
    | nil => exact head_later follow
    | cons j js =>
      rw [List.flatMap_cons, List.append_assoc]
      exact head_join (h.joins j List.mem_cons_self).kind _
  have breaks : Breaks (joins.flatMap (fun j => Mark.read (j.marks d)) ++ rest) :=
    head.breaks fun t mem => breaks_source t (List.mem_append_right _ mem)
  rw [fromTokens, List.append_assoc]
  exact (source_gives h.source breaks).bind (joinsRead.many.bind (Gives.ret _ _))

structure WindowReads (d : Dialect) (level : Level) (w : WindowDef) : Prop where
  named : IsName w.name
  bounds : w.spec.hasBounds = true
  spec : SpecReads d level w.spec

def windowDefTokens (d : Dialect) (w : WindowDef) : List Token :=
  wordToken w.name :: keywordToken "as" :: openToken :: (Mark.read (w.spec.marks d) ++ [closeToken])

theorem windowDefs_eq (ws : List WindowDef) :
    (windowDefsMarks d ws).map Mark.read = ws.map (windowDefTokens d) := by
  have as : (Mark.plain "as").tokens = [keywordToken "as"] := by decide
  induction ws with
  | nil => rfl
  | cons w ws ih =>
    obtain ⟨name, spec⟩ := w
    simp [windowDefsMarks, WindowDef.marks, ih, windowDefTokens, as]

theorem read_windows (o : Option (List WindowDef)) : Mark.read (windowsMarks d o) =
    optional "window" (fun ws => commaTokens (ws.map (windowDefTokens d))) o := by
  have keyword : (Mark.plain "window").tokens = [keywordToken "window"] := by decide
  cases o <;> simp [windowsMarks, optional, keyword, windowDefs_eq]

theorem windowDef_gives {w : WindowDef} (inside : scope.inside = some level)
    (h : WindowReads d level w) :
    (windowDef scope).Gives (windowDefTokens d w ++ rest) w rest := by
  obtain ⟨name, spec⟩ := w
  have tokens : windowDefTokens d ⟨name, spec⟩ ++ rest = wordToken name :: keywordToken "as" ::
      openToken :: (Mark.read (spec.marks d) ++ closeToken :: rest) := by
    simp [windowDefTokens]
  have bounded : (boundedSpec level).Gives (Mark.read (spec.marks d) ++ closeToken :: rest) spec
      (closeToken :: rest) :=
    (windowSpec_gives h.spec).bind (Gives.iteTrue h.bounds (Gives.ret _ _))
  rw [tokens]
  refine (name_gives h.named).bind ((Gives.require (by decide)).bind ?_)
  refine (Gives.require rfl).bind (Gives.enter inside (bounded.bind ?_))
  exact (Gives.require rfl).bind (Gives.ret _ _)

theorem windows_give {ws : List WindowDef} (inside : scope.inside = some level) (some : ws ≠ [])
    (h : ∀ w ∈ ws, WindowReads d level w) (ended : Lacks (isKind .comma) rest) :
    (commaList (windowDef scope)).Gives (commaTokens (ws.map (windowDefTokens d)) ++ rest) ws
      rest :=
  Gives.commaList (fun _ => True) some
    (fun w mem _ _ => windowDef_gives inside (h w mem)) (fun _ => trivial) trivial ended

/-- What the clauses of a select read. -/
structure SelectReads (d : Dialect) (scope : Scope) (s : Select) : Prop where
  items : ItemsRead d scope.here s.clause.items
  distinct : ∀ es, s.clause.distinct = some (.on es) →
    AreValues es ∧ ∀ e ∈ es, scope.here.ReadsValue d e
  source : ∀ f ∈ s.source, FromReads d scope f
  condition : ∀ e ∈ s.condition, scope.here.ReadsValue d e
  groupBy : ∀ es ∈ s.groupBy, es ≠ [] ∧ ∀ e ∈ es, scope.here.ReadsValue d e
  having : ∀ e ∈ s.having, scope.here.ReadsValue d e
  windows : ∀ ws ∈ s.windows, ws ≠ [] ∧
    ∃ level, scope.inside = some level ∧ ∀ w ∈ ws, WindowReads d level w
  ordered : s.orderBy ≠ some []
  order : ∀ items ∈ s.orderBy, ∀ i ∈ items, scope.here.ReadsValue d i.value
  limited : ∀ l ∈ s.limit, l.limit.isSome ∨ l.offset.isSome
  limit : ∀ l ∈ s.limit, ∀ e ∈ l.limit, scope.here.ReadsValue d e
  offset : ∀ l ∈ s.limit, ∀ e ∈ l.offset, scope.here.ReadsValue d e
  fetch : ∀ f ∈ s.fetch, FetchReads d scope.here f

def fetchTokens (d : Dialect) (f : Fetch) : List Token :=
  wordToken f.position.text :: (optionTokens d f.count ++ unitTokens f.unit)

theorem read_fetch (o : Option Fetch) :
    Mark.read (fetchMarks d o) = optional "fetch" (fetchTokens d) o := by
  cases o <;> simp [fetchMarks, optional, tokens_fetch, fetchTokens]

theorem head_limit {o : Option Limit} (follow : HeadIn (laterTokens 8) rest) :
    HeadIn (laterTokens 6) (Mark.read (limitMarks d o) ++ rest) := by
  have limit : Keyword.isComplete "limit" = true := by decide
  have offset : Keyword.isComplete "offset" = true := by decide
  cases o with
  | none => exact follow.mono (by decide)
  | some l =>
    obtain ⟨first, second⟩ := l
    have head : HeadIn (laterTokens 6) (optional "limit" (Expr.tokens d) first ++
        (optional "offset" (Expr.tokens d) second ++ rest)) := (follow.optional "offset" _ second).optional "limit" _ first
    simpa [limitMarks, Limit.marks, read_keyworded limit, read_keyworded offset] using head

/-- The clauses after the select list. -/
def tailTokens (d : Dialect) (s : Select) : List Token :=
  optional "from" (fromTokens d) s.source ++ (optional "where" (Expr.tokens d) s.condition ++
    (optional "group by" (fun es => commaTokens (es.map (Expr.tokens d))) s.groupBy ++
      (optional "having" (Expr.tokens d) s.having ++
        (optional "window" (fun ws => commaTokens (ws.map (windowDefTokens d))) s.windows ++
          (Mark.read (orderMarks d s.orderBy) ++ (Mark.read (limitMarks d s.limit) ++
            (optional "fetch" (fetchTokens d) s.fetch ++ optional "for" modeTokens s.lock)))))))

theorem tokens_simple (s : Select) : (Query.simple s).tokens d =
    Mark.read (withMarks d s.commonTables) ++ (Mark.read (s.clause.marks d) ++ tailTokens d s) := by
  obtain ⟨commonTables, clause, source, condition, groupBy, having, windows, orderBy, limit, fetch,
    lock⟩ := s
  have wherePlain : Keyword.isComplete "where" = true := by decide
  have groupPlain : Keyword.isComplete "group by" = true := by decide
  have havingPlain : Keyword.isComplete "having" = true := by decide
  simp [Query.tokens, Query.marks, Select.marks, tailTokens, read_from, read_keyworded wherePlain,
    read_values groupPlain, read_keyworded havingPlain, read_windows, read_fetch, read_lock]

theorem simpleSelect_gives {s : Select} (h : SelectReads d scope s)
    (follow : HeadIn termEnds rest) : (simpleSelect scope s.commonTables).Gives
      (Mark.read (s.clause.marks d) ++ (tailTokens d s ++ rest)) s rest := by
  obtain ⟨commonTables, clause, source, condition, groupBy, having, windows, orderBy, limit, fetch,
    lock⟩ := s
  simp only [tailTokens, List.append_assoc]
  -- What may follow each clause, from the last clause to the first.
  have lockHead : HeadIn (laterTokens 9) _ := follow.optional "for" modeTokens lock
  have fetchHead : HeadIn (laterTokens 8) _ := lockHead.optional "fetch" (fetchTokens d) fetch
  have limitHead := head_limit (d := d) (o := limit) fetchHead
  have orderHead : HeadIn (laterTokens 5) _ := head_order (d := d) orderBy limitHead
  have windowHead : HeadIn (laterTokens 4) _ := orderHead.optional "window"
    (fun ws => commaTokens (ws.map (windowDefTokens d))) windows
  have havingHead : HeadIn (laterTokens 3) _ :=
    windowHead.optional "having" (Expr.tokens d) having
  have groupHead : HeadIn (laterTokens 2) _ := havingHead.optional "group by"
    (fun es => commaTokens (es.map (Expr.tokens d))) groupBy
  have whereHead : HeadIn (laterTokens 1) _ := groupHead.optional "where" (Expr.tokens d) condition
  have fromHead : HeadIn (laterTokens 0) _ := whereHead.optional "from" (fromTokens d) source
  have plain (n : Nat) := breaks_later n
  refine (selectClause_gives h.distinct h.items fromHead).bind ?_
  refine (Gives.optional (fun f mem => fromClause_gives (h.source f mem) whereHead)
    (whereHead.lacks (by decide))).bind ?_
  refine (keyworded_gives h.condition (groupHead.breaks (plain 2))
    (groupHead.lacks (by decide))).bind ?_
  refine (Gives.optional (fun es mem => values_give (h.groupBy es mem).1 (h.groupBy es mem).2
    ((havingHead.breaks (plain 3)).closed 0) (havingHead.lacks (by decide)))
    (havingHead.lacks (by decide))).bind ?_
  refine (keyworded_gives h.having (windowHead.breaks (plain 4))
    (windowHead.lacks (by decide))).bind ?_
  refine (Gives.optional (fun ws mem => ?windows) (orderHead.lacks (by decide))).bind ?_
  case windows =>
    obtain ⟨nonempty, _, inside, each⟩ := h.windows ws mem
    exact windows_give inside nonempty each (orderHead.lacks (by decide))
  refine (orderBy_gives h.ordered h.order (limitHead.mono (by decide))).bind ?_
  refine (limit_gives h.limited h.limit h.offset fetchHead).bind ?_
  refine (Gives.optional (fun f mem => fetch_gives (h.fetch f mem))
    (lockHead.lacks (by decide))).bind ?_
  refine (Gives.optional (fun mode _ => lock_gives mode) (follow.lacks (by decide))).bind ?_
  exact Gives.ret _ _

def rowTokens (d : Dialect) (row : List Expr) : List Token :=
  openToken :: (commaTokens (row.map (Expr.tokens d)) ++ [closeToken])

theorem read_rows (rows : List (List Expr)) :
    (rowsMarks d rows).map Mark.read = rows.map (rowTokens d) := by
  simp [rowsMarks_eq, rowTokens, Expr.marks, read_exprs, Function.comp_def]

theorem tokens_values (rows : List (List Expr)) : (Query.values rows).tokens d =
    keywordToken "values" :: commaTokens (rows.map (rowTokens d)) := by
  have keyword : (Mark.plain "values").tokens = [keywordToken "values"] := by decide
  simp [Query.tokens, Query.marks, keyword, read_rows]

theorem row_gives {es : List Expr} (some : es ≠ []) (h : ∀ e ∈ es, level.ReadsValue d e) :
    (row level).Gives (rowTokens d es ++ rest) es rest := by
  have tokens : rowTokens d es ++ rest =
      openToken :: (commaTokens (es.map (Expr.tokens d)) ++ closeToken :: rest) := by
    simp [rowTokens]
  rw [tokens]
  refine (Gives.require rfl).bind ((values_give some h (closed_close 0 rest) (lacks_head rfl)).bind ?_)
  exact (Gives.require rfl).bind (Gives.ret _ _)

/-- What a term of a query reads. -/
inductive TermReads (d : Dialect) (scope : Scope) : Query → Prop
  | simple {s : Select} (reads : SelectReads d scope s) :
      TermReads d scope (.simple s)
  | values {rows : List (List Expr)} (some : rows ≠ [])
      (each : ∀ row ∈ rows, row ≠ [] ∧ ∀ e ∈ row, scope.here.ReadsValue d e) :
      TermReads d scope (.values rows)

theorem values_term {rows : List (List Expr)} (some : rows ≠ [])
    (each : ∀ row ∈ rows, row ≠ [] ∧ ∀ e ∈ row, scope.here.ReadsValue d e)
    (follow : HeadIn termEnds rest) :
    (term scope none).Gives ((Query.values rows).tokens d ++ rest) (.values rows) rest := by
  rw [tokens_values]
  refine Gives.yes (Gives.eat_true (by decide)) (Gives.map _ ?_)
  exact Gives.commaList (fun _ => True) some
    (fun es mem _ _ => row_gives (each es mem).1 (each es mem).2) (fun _ => trivial) trivial
    (follow.lacks (by decide))

theorem selectClause_head (c : SelectClause) (ts : List Token) :
    ∃ more, Mark.read (c.marks d) ++ ts = keywordToken "select" :: more := by
  obtain ⟨distinct, items⟩ := c
  have keyword : (Mark.plain "select").tokens = [keywordToken "select"] := by decide
  cases distinct <;> simp [SelectClause.marks, keyword]

theorem simple_term {s : Select} (h : SelectReads d scope s)
    (follow : HeadIn termEnds rest) : (term scope s.commonTables).Gives
      (Mark.read (s.clause.marks d) ++ (tailTokens d s ++ rest)) (.simple s) rest := by
  obtain ⟨more, tokens⟩ := selectClause_head s.clause (tailTokens d s ++ rest) (d := d)
  have lacks : Lacks (fun t => t.isCommand "values")
      (Mark.read (s.clause.marks d) ++ (tailTokens d s ++ rest)) := by
    rw [tokens]
    exact lacks_head (by decide)
  exact Gives.no (Gives.eat_false lacks) ((simpleSelect_gives h follow).map _)

/-- A term without common tables. -/
theorem term_gives {q : Query} (h : TermReads d scope q) (isTerm : q.IsTerm)
    (follow : HeadIn termEnds rest) : (term scope none).Gives (q.tokens d ++ rest) q rest := by
  cases h with
  | values some each => exact values_term some each follow
  | @simple s reads =>
    have none : s.commonTables = none := Option.isNone_iff_eq_none.1 isTerm
    have read := simple_term reads follow
    rw [tokens_simple, none]
    rw [none] at read
    simpa [withMarks] using read

def materializedTokens : Option Bool → List Token
  | none => []
  | some true => [keywordToken "materialized"]
  | some false => [keywordToken "not materialized"]

/-- What a common table reads. -/
structure TableReads (d : Dialect) (level : Level) (t : CommonTable) : Prop where
  header : t.header.Fits
  query : level.ReadsQuery d t.query

def tableTokens (d : Dialect) (t : CommonTable) : List Token :=
  aliasTokens t.header ++ keywordToken "as" :: (materializedTokens t.materialized ++
    openToken :: (t.query.tokens d ++ [closeToken]))

theorem tables_eq (ts : List CommonTable) :
    (tablesMarks d ts).map Mark.read = ts.map (tableTokens d) := by
  have as : (Mark.plain "as").tokens = [keywordToken "as"] := by decide
  have words (o : Option Bool) : (materializedMarks o).flatMap Mark.read = materializedTokens o := by
    match o with
    | none => rfl
    | some true => decide
    | some false => decide
  induction ts with
  | nil => rfl
  | cons t ts ih =>
    obtain ⟨header, materialized, query⟩ := t
    simp [tablesMarks, CommonTable.marks, tableTokens, ih, as, words, aliasTokens, Query.tokens]

theorem materialized_gives (o : Option Bool) (rest : List Token) :
    materialized.Gives (materializedTokens o ++ openToken :: rest) o (openToken :: rest) := by
  match o with
  | none =>
    refine Gives.no (Gives.eat_false (lacks_head (by decide))) ?_
    exact Gives.no (Gives.eat_false (lacks_head (by decide))) (Gives.ret _ _)
  | some true => exact Gives.yes (Gives.eat_true (by decide)) (Gives.ret _ _)
  | some false =>
    refine Gives.no (Gives.eat_false (lacks_head (by decide))) ?_
    exact Gives.yes (Gives.eat_true (by decide)) (Gives.ret _ _)

theorem commonTable_gives {t : CommonTable} (inside : scope.inside = some level)
    (h : TableReads d level t) : (commonTable scope).Gives (tableTokens d t ++ rest) t rest := by
  obtain ⟨⟨name, columns⟩, materialized, query⟩ := t
  obtain ⟨named, columnsNamed⟩ := h.header
  have tokens : tableTokens d ⟨⟨name, columns⟩, materialized, query⟩ ++ rest = wordToken name ::
      (Mark.read (if columns.isEmpty then [] else inParens (writeNames columns)) ++
        keywordToken "as" :: (materializedTokens materialized ++
          openToken :: (query.tokens d ++ closeToken :: rest))) := by
    simp [tableTokens, aliasTokens, tokens_alias]
  rw [tokens]
  refine (name_gives named).bind ((columnNames_give columnsNamed (lacks_head rfl)).bind ?_)
  refine (Gives.require (by decide)).bind ((materialized_gives materialized _).bind ?_)
  refine (Gives.require rfl).bind ((Gives.enter inside (nestedQuery_gives h.query)).bind ?_)
  exact Gives.ret _ _

structure WithReads (d : Dialect) (scope : Scope) (w : With) : Prop where
  nonempty : w.tables ≠ []
  tables : ∃ level, scope.inside = some level ∧ ∀ t ∈ w.tables, TableReads d level t

def recursiveTokens (recursive : Bool) : List Token :=
  if recursive then [keywordToken "recursive"] else []

def withTokens (d : Dialect) (w : With) : List Token :=
  recursiveTokens w.recursive ++ commaTokens (w.tables.map (tableTokens d))

theorem read_with (o : Option With) :
    Mark.read (withMarks d o) = optional "with" (withTokens d) o := by
  have opening : (Mark.plain "with").tokens = [keywordToken "with"] := by decide
  have word : (Mark.plain "recursive").tokens = [keywordToken "recursive"] := by decide
  cases o with
  | none => rfl
  | some w =>
    obtain ⟨recursive, tables⟩ := w
    cases recursive <;>
      simp [withMarks, With.marks, optional, withTokens, recursiveTokens, opening, word,
        optionalWord, tables_eq]

/-- Common tables are read back in front of a select. -/
theorem commonTables_give {o : Option With} (h : ∀ w ∈ o, WithReads d scope w)
    (ts : List Token) : (commonTables scope).Gives
      (optional "with" (withTokens d) o ++ keywordToken "select" :: ts) o
        (keywordToken "select" :: ts) := by
  refine Gives.optional (fun w mem => ?_) (lacks_head (by decide))
  obtain ⟨some, _, inside, each⟩ := h w mem
  obtain ⟨recursive, tables⟩ := w
  have tablesRead : (commaList (commonTable scope)).Gives
      (commaTokens (tables.map (tableTokens d)) ++ keywordToken "select" :: ts) tables
        (keywordToken "select" :: ts) :=
    Gives.commaList (fun _ => True) some
      (fun t mem _ _ => commonTable_gives inside (each t mem)) (fun _ => trivial) trivial
      (lacks_head rfl)
  have recursiveReads : (eatKeyword "recursive").Gives (recursiveTokens recursive ++
      (commaTokens (tables.map (tableTokens d)) ++ keywordToken "select" :: ts)) recursive
        (commaTokens (tables.map (tableTokens d)) ++ keywordToken "select" :: ts) := by
    cases recursive with
    | true => exact Gives.eat_true (by decide)
    | false =>
      obtain ⟨t, others, rfl⟩ := List.exists_cons_of_ne_nil some
      simp only [List.map_cons, commaTokens, tableTokens, aliasTokens, tokens_alias]
      exact Gives.eat_false (lacks_head rfl)
  rw [withTokens, List.append_assoc]
  refine recursiveReads.bind (tablesRead.bind ?_)
  exact Gives.yes (Gives.look_true (by decide)) (Gives.ret _ _)

/-- The left operand of a set operation takes the operations after it. -/
def foldOperations (first : Query) (operations : List (String × Query)) : Query :=
  operations.foldl (fun left (operator, right) => .binary left operator right) first

variable (d) in
/-- The query is read back together with the set operations that follow it. -/
def ReadsChain (scope : Scope) (q : Query) : Prop :=
  ∀ operations mid rest, HeadIn termEnds mid → Yielding (setOperation scope) mid operations rest →
    (query scope).Gives (q.tokens d ++ mid) (foldOperations q operations) rest

/-- No set operation follows at the end of a query. -/
theorem ReadsChain.query {n : Nat} {q : Query} (h : ReadsChain d (scopeAt n) q) :
    (levelAt (n + 1)).ReadsQuery d q := by
  intro rest follow
  simp only [levelAt, queryAt_succ]
  have ended : (setOperation (scopeAt n)).Gives rest none rest := by
    refine (Gives.accept_none fun t head => ?_).bind (Gives.ret _ _)
    have none : ∀ t ∈ endTokens, (if isKind .command t && setOperators.contains t.text then
        some t.text else none) = none := by decide
    exact none t (follow t head)
  exact h [] rest rest (follow.mono fun t mem => List.mem_append_left _ mem) (.done ended)

theorem simple_chain {s : Select} (h : SelectReads d scope s)
    (tables : ∀ w ∈ s.commonTables, WithReads d scope w) :
    ReadsChain d scope (.simple s) := by
  intro operations mid rest follow others
  obtain ⟨more, tokens⟩ := selectClause_head s.clause (tailTokens d s ++ mid) (d := d)
  have termReads := simple_term h follow
  rw [tokens_simple, read_with, List.append_assoc, List.append_assoc]
  rw [tokens] at termReads ⊢
  refine (commonTables_give tables more).bind (termReads.bind ?_)
  exact others.many.bind (Gives.ret _ _)

theorem values_chain {rows : List (List Expr)} (some : rows ≠ [])
    (each : ∀ row ∈ rows, row ≠ [] ∧ ∀ e ∈ row, scope.here.ReadsValue d e) :
    ReadsChain d scope (.values rows) := by
  intro operations mid rest follow others
  have lacks : Lacks (fun t => t.isCommand "with") ((Query.values rows).tokens d ++ mid) := by
    rw [tokens_values]
    exact lacks_head (by decide)
  refine (Gives.after_none (Gives.eat_false lacks)).bind ((values_term some each follow).bind ?_)
  exact others.many.bind (Gives.ret _ _)

theorem setOperator_tokens : ∀ operator ∈ setOperators,
    (rawMark operator).tokens = [keywordToken operator] ∧
      isKind .command (keywordToken operator) = true := by
  decide

theorem binary_chain {left right : Query} {operator : String} (leftReads : ReadsChain d scope left)
    (known : operator ∈ setOperators) (rightReads : TermReads d scope right)
    (isTerm : right.IsTerm) : ReadsChain d scope (.binary left operator right) := by
  intro operations mid rest follow others
  obtain ⟨token, command⟩ := setOperator_tokens operator known
  have tokens : (Query.binary left operator right).tokens d ++ mid =
      left.tokens d ++ (keywordToken operator :: (right.tokens d ++ mid)) := by
    simp [Query.tokens_binary, token]
  have operation : (setOperation scope).Gives (keywordToken operator :: (right.tokens d ++ mid))
      (some (operator, right)) mid := by
    refine (Gives.accept_some (a := operator) ?_).bind ?_
    · rw [command]
      simp [keywordToken, known]
    · exact (term_gives rightReads isTerm follow).bind (Gives.ret _ _)
  have head : HeadIn termEnds (keywordToken operator :: (right.tokens d ++ mid)) :=
    .cons (List.mem_append_right _ (List.mem_map_of_mem known)) _
  rw [tokens]
  refine leftReads ((operator, right) :: operations) _ rest head (.step operation ?_ others)
  simp only [List.length_cons, List.length_append]
  omega

end SqlQuery.Grammar
