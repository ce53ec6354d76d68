import SqlQuery.Grammar.Clause

/-!
Rules for queries, and the rules that they and expressions nest in each other. Every nested query or
expression runs one level deeper, so the levels still allowed bound the nesting.
-/

namespace SqlQuery.Grammar

open Rule

def row (level : Level) : Rule (List Expr) := do
  openParen
  let values ← values level
  closeParen
  return values

def simpleSelect (scope : Scope) (commonTables : Option With) : Rule Select := do
  let level := scope.here
  let clause ← selectClause level
  let source ← after (eatKeyword "from") (fromClause scope)
  let condition ← after (eatKeyword "where") (level.expr 0)
  let groupBy ← after (eatKeyword "group by") (values level)
  let having ← after (eatKeyword "having") (level.expr 0)
  let windows ← after (eatKeyword "window") (commaList (windowDef scope))
  let orderBy ← orderBy level
  let limit ← limit level
  let fetch ← after (eatKeyword "fetch") (fetch level)
  let lock ← after (eatKeyword "for") lock
  return ⟨commonTables, clause, source, condition, groupBy, having, windows, orderBy, limit, fetch,
    lock⟩

/-- A list of values, or a select that takes the common tables read before it. -/
def term (scope : Scope) (commonTables : Option With) : Rule Query := do
  if ← eatKeyword "values" then .values <$> commaList (row scope.here)
  else .simple <$> simpleSelect scope commonTables

def materialized : Rule (Option Bool) := do
  if ← eatKeyword "materialized" then return some true
  else if ← eatKeyword "not materialized" then return some false
  else return none

def commonTable (scope : Scope) : Rule CommonTable := do
  let name ← name
  let columns ← columnNames
  keyword "as"
  let materialized ← materialized
  openParen
  let query ← scope.enter nestedQuery
  return ⟨⟨name, columns⟩, materialized, query⟩

/-- The common tables of a query, which a select has to follow. -/
def commonTables (scope : Scope) : Rule (Option With) :=
  after (eatKeyword "with") do
    let recursive ← eatKeyword "recursive"
    let tables ← commaList (commonTable scope)
    if ← look 0 fun t => t.isCommand "select" then return ⟨recursive, tables⟩
    else fail (quoted "select")

def setOperators : List String :=
  ["union", "union all", "intersect", "intersect all", "except", "except all"]

def setOperation (scope : Scope) : Rule (Option (String × Query)) := do
  let operator ← accept fun t =>
    if isKind .command t && setOperators.contains t.text then some t.text else none
  match operator with
  | none => return none
  | some operator => return some (operator, ← term scope none)

/-- A query: set operations group to the left, and the first operand takes the common tables. -/
def query (scope : Scope) : Rule Query := do
  let commonTables ← commonTables scope
  let first ← term scope commonTables
  let operations ← many (setOperation scope)
  return operations.foldl (fun left (operator, right) => .binary left operator right) first

mutual

/-- An expression with so many levels allowed. -/
def exprAt : Nat → Nat → List Token → Except Stop (Expr × List Token)
  | 0, _, ts => .error ⟨.tooDeep, ts, 1⟩
  | 1, floor, ts => expression ⟨⟨exprAt 0, queryAt 0⟩, none⟩ floor ts
  | n + 2, floor, ts =>
    expression ⟨⟨exprAt (n + 1), queryAt (n + 1)⟩, some ⟨exprAt n, queryAt n⟩⟩ floor ts

/-- A query with so many levels allowed. -/
def queryAt : Nat → List Token → Except Stop (Query × List Token)
  | 0, ts => .error ⟨.tooDeep, ts, 1⟩
  | 1, ts => query ⟨⟨exprAt 0, queryAt 0⟩, none⟩ ts
  | n + 2, ts =>
    query ⟨⟨exprAt (n + 1), queryAt (n + 1)⟩, some ⟨exprAt n, queryAt n⟩⟩ ts

end

def levelAt (n : Nat) : Level := ⟨exprAt n, queryAt n⟩

/-- What rules may call with so many levels allowed below them. -/
def scopeAt : Nat → Scope
  | 0 => ⟨levelAt 0, none⟩
  | n + 1 => ⟨levelAt (n + 1), some (levelAt n)⟩

theorem exprAt_succ (n floor : Nat) : exprAt (n + 1) floor = expression (scopeAt n) floor := by
  cases n <;> funext ts <;> simp [exprAt, scopeAt, levelAt]

theorem queryAt_succ (n : Nat) : queryAt (n + 1) = query (scopeAt n) := by
  cases n <;> funext ts <;> simp [queryAt, scopeAt, levelAt]

/-- What holds where every rule is refused, and of rules over a scope of which it holds, holds of every
level. -/
theorem levelAt_induction {P : Nat → Level → Prop} {S : Nat → Scope → Prop}
    (scope : ∀ n s, P n s.here →
      (∀ level, s.inside = some level → ∃ m, n = m + 1 ∧ P m level) → S n s)
    (zero : P 0 ⟨fun _ ts => .error ⟨.tooDeep, ts, 1⟩, fun ts => .error ⟨.tooDeep, ts, 1⟩⟩)
    (succ : ∀ n s, S n s → P (n + 1) ⟨expression s, query s⟩) (n : Nat) :
    P n (levelAt n) ∧ S n (scopeAt n) := by
  have next (n : Nat) : levelAt (n + 1) = ⟨expression (scopeAt n), query (scopeAt n)⟩ :=
    congr (congrArg Level.mk (funext (exprAt_succ n))) (queryAt_succ n)
  induction n with
  | zero =>
    have here : P 0 (levelAt 0) := zero
    exact ⟨here, scope 0 _ here fun level inside => by cases inside⟩
  | succ n ih =>
    have here : P (n + 1) (levelAt (n + 1)) := next n ▸ succ n _ ih.2
    exact ⟨here, scope _ _ here fun level same => ⟨n, rfl, Option.some.inj same ▸ ih.1⟩⟩

/-- The same of what does not depend on how many levels are allowed. -/
theorem levelAt_invariant {P : Level → Prop} {S : Scope → Prop}
    (scope : ∀ s, P s.here → (∀ level, s.inside = some level → P level) → S s)
    (zero : P ⟨fun _ ts => .error ⟨.tooDeep, ts, 1⟩, fun ts => .error ⟨.tooDeep, ts, 1⟩⟩)
    (succ : ∀ s, S s → P ⟨expression s, query s⟩) (n : Nat) :
    P (levelAt n) ∧ S (scopeAt n) := by
  refine levelAt_induction (P := fun _ => P) (S := fun _ => S) ?_ zero (fun _ => succ) n
  exact fun _ s here inside => scope s here fun level same =>
    (inside level same).elim fun _ below => below.2

/-- A query with nothing after it but a semicolon. -/
def statementAt (levels : Nat) : Rule Query := do
  let query ← queryAt levels
  let _ ← eat fun t => t.isOperator ";"
  if (← peek).isSome then stop .trailing else return query

end SqlQuery.Grammar
