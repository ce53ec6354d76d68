import SqlQuery.Proofs.Nesting.Clause
import SqlQuery.Proofs.Written.Outcome
import SqlQuery.Proofs.Written.Parsed

/-!
How long the paths down a tree can be that is read within a limit: the levels bound them but for the
operands that operators, casts and set operations go on with, one after another at the same level.
-/

namespace SqlQuery

namespace Node

/-- The step goes to the operand that an operator, a cast or a set operation goes on with. -/
def goesOn : Node → Child → Nat
  | .expr (.binary _ _ _), (role, _) | .query (.binary _ _ _), (role, _) => if role = "left" then 1 else 0
  | .expr (.between _ _ _ _), (role, _) => if role = "expression" then 1 else 0
  | .expr (.cast _ _), (role, _) => if role = "input" then 1 else 0
  | _, _ => 0

end Node

/-- Nodes that may follow before the next level, on top of those that the level pays for. -/
def Expr.slack : Expr → Nat
  | .raw _ | .literal _ | .list _ => 0
  | .type _ | .inlineQuery _ => 1
  | _ => 2

def Query.slack : Query → Nat
  | .binary _ _ _ => 7
  | _ => 6

def Node.slack : Node → Nat
  | .expr e => e.slack
  | .query q => q.slack
  | .fromClause _ => 5
  | .join _ => 4
  | .source _ | .commonTables _ => 3
  | .select _ | .windowSpec _ | .windows _ | .commonTable _ => 2
  | .switch _ | .selectItem _ | .distinct _ | .table _ | .sourceAlias _ | .orderBy _ | .overClause _
  | .windowDef _ => 1
  | _ => 0

namespace Node

open Child

variable {T : Token → Prop} {n : Node}

/-- Every level pays for three and a half nodes. -/
def Pays (n : Node) (c : Child) : Prop :=
  2 * c.2.slack + 2 ≤ 7 * n.leastRise c + 2 * n.goesOn c + 2 * n.slack

theorem pays_of_part {c : Child} (read : n.isLate = false)
    (h : 2 * c.2.slack + 2 ≤ 7 * n.partRise c + 2 * n.goesOn c + 2 * n.slack) : n.Pays c := by
  rw [Pays, leastRise, read, if_neg Bool.false_ne_true, rise]
  omega

theorem slack_le (e : Expr) : e.slack ≤ 2 := by cases e <;> simp [Expr.slack]

theorem query_slack_le (q : Query) : q.slack ≤ 7 := by cases q <;> simp [Query.slack]

/-- A value that is read a level deeper is paid for. -/
theorem pays_value {role : String} {e : Expr} (read : n.isLate = false)
    (rise : 1 ≤ n.partRise (role, .expr e)) : n.Pays (role, .expr e) := by
  have small := slack_le e
  refine pays_of_part read ?_
  rw [slack]
  omega

/-- Names and texts are paid for where anything may follow the node. -/
theorem pays_leaf {c : Child} (read : n.isLate = false) (leaf : c.2.slack = 0) (some : 1 ≤ n.slack) :
    n.Pays c :=
  pays_of_part read (by omega)

/-- The operand that an operator goes on with is counted apart. -/
theorem pays_operand {role : String} {e : Expr} (counted : n.goesOn (role, .expr e) = 1)
    (two : n.slack = 2) : n.Pays (role, .expr e) := by
  have small := slack_le e
  rw [Pays, counted, two, slack]
  omega

theorem pays_argument (call : FunctionCall) (e : Expr) :
    (Node.expr (.function call)).Pays ("argument", .expr e) := by
  have deeper (rise : 1 ≤ (Node.expr e).argumentRise) :
      (Node.expr (.function call)).Pays ("argument", .expr e) := pays_value rfl rise
  cases e with
  | inlineQuery q => exact pays_of_part rfl (Nat.le_refl 4)
  | unary | binary | column => exact deeper (by rw [argumentRise]; split <;> decide)
  | list => exact deeper (Nat.le_refl 1)
  | _ => exact deeper (Nat.le_succ 1)

theorem pays_unary {operator : String} {operand : Expr} (h : (Expr.unary operator operand).Parsed T) :
    (Node.expr (.unary operator operand)).Pays ("expression", .expr operand) := by
  by_cases test : operator = "exists"
  · subst test
    obtain ⟨_, q, rfl⟩ := h.resolve_left (by decide)
    exact pays_of_part rfl (Nat.le_refl 4)
  · have rise : (Node.expr (.unary operator operand)).partRise ("expression", .expr operand) =
        (Node.expr operand).listedRise := by simp [partRise, test]
    cases operand with
    | list => exact pays_of_part rfl (by simp [slack, Expr.slack])
    | _ => exact pays_value rfl (rise ▸ Nat.le_refl 1)

theorem pays_right (left right : Expr) (operator : String) :
    (Node.expr (.binary left operator right)).Pays ("right", .expr right) := by
  by_cases listed : Power.isMembership operator ∧ right.isTuple
  · cases right with
    | tuple values =>
      have rise : (Node.expr (.binary left operator (.tuple values))).leastRise
          ("right", .expr (.tuple values)) = 1 := by
        simp [leastRise, isLate, Expr.isLate, Node.rise, partRise, listed, isTuple, isRows]
      rw [Pays, rise]
      change 2 * 2 + 2 ≤ 7 * 1 + 2 * 0 + 2 * 2
      decide
    | _ => cases listed.2
  · exact pays_value rfl (by simp [partRise, listed])

theorem expr_pays {e : Expr} (h : e.Parsed T) : ∀ c ∈ e.children, (Node.expr e).Pays c := by
  have two : 1 ≤ 2 := Nat.le_succ 1
  cases e with
  | literal | raw | parameter => simp [Expr.children]
  | column ref =>
    refine List.forall_mem_append.2 ⟨forall_each.2 fun _ _ => ?_, List.forall_mem_singleton.2 ?_⟩ <;>
      exact pays_leaf rfl rfl two
  | function call =>
    simp only [Expr.children, FunctionCall.children, List.forall_mem_append, forall_each, forall_maybe,
      List.forall_mem_singleton]
    exact ⟨⟨⟨fun _ _ => pays_leaf rfl rfl two, pays_leaf rfl rfl two⟩,
      fun e _ => pays_argument call e⟩, fun o _ => pays_of_part rfl (Nat.le_refl 4)⟩
  | unary operator operand => exact forall_pair.2 ⟨pays_leaf rfl rfl two, pays_unary h⟩
  | binary left operator right =>
    exact List.forall_mem_cons.2 ⟨pays_operand rfl rfl,
      forall_pair.2 ⟨pays_leaf rfl rfl two, pays_right left right operator⟩⟩
  | array content =>
    rcases h with ⟨q, rfl⟩ | ⟨es, rfl, _⟩
    · exact List.forall_mem_singleton.2 (pays_of_part rfl (Nat.le_refl 4))
    · exact List.forall_mem_singleton.2 (pays_value rfl (Nat.le_refl 1))
  | tuple values | list values =>
    exact forall_each.2 fun e _ => pays_value rfl (Nat.le_refl 1)
  | case subject switch =>
    refine List.forall_mem_append.2 ⟨forall_maybe.2 fun e _ => pays_value rfl two, ?_⟩
    exact List.forall_mem_singleton.2 (pays_of_part rfl (by simp [slack, partRise]; omega))
  | cast input ref => exact forall_pair.2 ⟨pays_operand rfl rfl, by simp [Pays, slack, Expr.slack]⟩
  | paren inner => exact List.forall_mem_singleton.2 (pays_value rfl two)
  | between operand lower upper negated =>
    exact List.forall_mem_cons.2 ⟨pays_operand rfl rfl,
      forall_pair.2 ⟨pays_value rfl (Nat.le_refl 1), pays_value rfl (Nat.le_refl 1)⟩⟩
  | type ref =>
    refine List.forall_mem_cons.2 ⟨pays_leaf rfl rfl (Nat.le_refl 1), forall_maybe.2 fun e mem => ?_⟩
    obtain ⟨values, rfl, _⟩ := h.2 e mem
    exact pays_leaf rfl rfl (Nat.le_refl 1)
  | specifiedString specifier value =>
    exact forall_pair.2 ⟨pays_leaf rfl rfl two, pays_leaf rfl rfl two⟩
  | inlineQuery q =>
    have few := query_slack_le q
    refine List.forall_mem_singleton.2 (pays_of_part rfl ?_)
    change 2 * q.slack + 2 ≤ 7 * 2 + 2 * 0 + 2 * 1
    omega

theorem query_pays {q : Query} (h : q.Fits) : ∀ c ∈ q.children, (Node.query q).Pays c := by
  have part {q : Query} {c : Child} (few : c.2.slack ≤ 5) : (Node.query q).Pays c := by
    have enough : 6 ≤ (Node.query q).slack := by cases q <;> simp [slack, Query.slack]
    refine pays_of_part rfl ?_
    omega
  cases q with
  | simple s =>
    simp only [Query.children, Select.children, List.forall_mem_append, List.forall_mem_singleton,
      forall_maybe]
    refine ⟨⟨⟨⟨⟨⟨⟨⟨⟨⟨fun _ _ => part ?_, part ?_⟩, fun _ _ => part ?_⟩, fun _ _ => part ?_⟩,
      fun _ _ => part ?_⟩, fun _ _ => part ?_⟩, fun _ _ => part ?_⟩, fun _ _ => part ?_⟩,
      fun _ _ => part ?_⟩, fun _ _ => part ?_⟩, fun _ _ => part ?_⟩ <;> simp [slack]
  | binary left operator right =>
    have few := query_slack_le left
    have term : right.slack = 6 := by
      cases right with
      | binary => exact h.2.elim
      | _ => rfl
    refine List.forall_mem_cons.2 ⟨?_, forall_pair.2 ⟨part (Nat.zero_le 5), ?_⟩⟩
    · refine pays_of_part rfl ?_
      change 2 * left.slack + 2 ≤ 7 * 0 + 2 * 1 + 2 * 7
      omega
    · refine pays_of_part rfl ?_
      change 2 * right.slack + 2 ≤ 7 * 0 + 2 * 0 + 2 * 7
      omega
  | values rows => exact forall_each.2 fun row _ => part (by simp [slack, Expr.slack])

/-- Every level pays for three and a half nodes. -/
theorem pays (h : n.Parsed T) : ∀ c ∈ n.children, n.Pays c := by
  have value {n : Node} {role : String} {e : Expr} (read : n.isLate = false)
      (rise : 1 ≤ n.partRise (role, .expr e)) : n.Pays (role, .expr e) := pays_value read rise
  cases n with
  | expr e => exact expr_pays h
  | query q => exact query_pays h
  | identifier name | lock mode => simp [Node.children]
  | switch s =>
    simp only [Node.children, List.forall_mem_append, forall_each, forall_maybe]
    exact ⟨fun b _ => pays_of_part rfl (by simp [slack]), fun e _ => value rfl (Nat.le_refl 1)⟩
  | branch b => exact forall_pair.2 ⟨value rfl (Nat.le_refl 1), value rfl (Nat.le_refl 1)⟩
  | select c =>
    simp only [Node.children, List.forall_mem_append, forall_each, forall_maybe]
    exact ⟨fun d _ => pays_of_part rfl (by simp [slack]), fun i _ => pays_of_part rfl (by simp [slack])⟩
  | selectItem i =>
    simp only [Node.children, List.forall_mem_cons, forall_maybe]
    exact ⟨value rfl (Nat.le_refl 1), fun name _ => pays_of_part rfl (by simp [slack])⟩
  | distinct d =>
    cases d with
    | rows => simp [Node.children, Distinct.children]
    | on values => exact List.forall_mem_singleton.2 (pays_of_part rfl (by simp [slack, Expr.slack]))
  | fromClause f =>
    simp only [Node.children, List.forall_mem_cons, forall_each]
    exact ⟨pays_of_part rfl (by simp [slack]), fun j _ => pays_of_part rfl (by simp [slack])⟩
  | join j =>
    simp only [Node.children, List.forall_mem_append, forall_pair, List.forall_mem_flatMap]
    refine ⟨⟨pays_of_part rfl (by simp [slack, Expr.slack]), pays_of_part rfl (by simp [slack])⟩, ?_⟩
    rintro (condition | names) _
    · exact List.forall_mem_singleton.2 (value rfl (Nat.le_refl 1))
    · exact forall_each.2 fun name _ => pays_of_part rfl (by simp [slack])
  | source s =>
    simp only [Node.children, List.forall_mem_cons, forall_maybe]
    refine ⟨?_, fun a _ => pays_of_part rfl (by simp [slack])⟩
    cases s.data with
    | subQuery q =>
      have few := query_slack_le q
      refine pays_of_part rfl ?_
      change 2 * q.slack + 2 ≤ 7 * 2 + 2 * 0 + 2 * 3
      omega
    | _ => exact pays_of_part rfl (by simp [DataSource.node, slack, Expr.slack])
  | table t =>
    simp only [Node.children, List.forall_mem_append, List.forall_mem_singleton, forall_each]
    exact ⟨fun _ _ => pays_of_part rfl (by simp [slack]), pays_of_part rfl (by simp [slack])⟩
  | sourceAlias a =>
    simp only [Node.children, List.forall_mem_cons, forall_each]
    exact ⟨pays_of_part rfl (by simp [slack]), fun _ _ => pays_of_part rfl (by simp [slack])⟩
  | filter e | having e | orderItem i => exact List.forall_mem_singleton.2 (value rfl (Nat.le_refl 1))
  | groupBy es | partitionBy es => exact forall_each.2 fun e _ => value rfl (Nat.le_refl 1)
  | orderBy items => exact forall_each.2 fun i _ => pays_of_part rfl (by simp [slack])
  | overClause o =>
    cases o with
    | named name => exact List.forall_mem_singleton.2 (pays_of_part rfl (by simp [slack]))
    | window spec => exact List.forall_mem_singleton.2 (pays_of_part rfl (by simp [slack, partRise]; omega))
  | windowSpec w =>
    simp only [Node.children, List.forall_mem_append, forall_maybe]
    exact ⟨⟨fun _ _ => pays_of_part rfl (by simp [slack]), fun _ _ => pays_of_part rfl (by simp [slack])⟩,
      fun _ _ => pays_of_part rfl (by simp [slack])⟩
  | frame f =>
    simp only [Node.children, List.forall_mem_append, forall_maybe]
    exact ⟨fun e _ => value rfl (Nat.le_refl 1), fun e _ => value rfl (Nat.le_refl 1)⟩
  | windowDef w =>
    exact forall_pair.2 ⟨pays_of_part rfl (by simp [slack]), pays_of_part rfl (by simp [slack, partRise]; omega)⟩
  | windows ws => exact forall_each.2 fun w _ => pays_of_part rfl (by simp [slack])
  | commonTables w => exact forall_each.2 fun t _ => pays_of_part rfl (by simp [slack])
  | commonTable t =>
    have few := query_slack_le t.query
    refine forall_pair.2 ⟨pays_of_part rfl (by simp [slack]), pays_of_part rfl ?_⟩
    change 2 * t.query.slack + 2 ≤ 7 * 2 + 2 * 0 + 2 * 2
    omega
  | limit l =>
    simp only [Node.children, List.forall_mem_append, forall_maybe]
    exact ⟨fun e _ => value rfl (Nat.le_refl 1), fun e _ => value rfl (Nat.le_refl 1)⟩
  | fetch f => exact forall_maybe.2 fun e _ => value rfl (Nat.le_refl 1)

/-- By induction on the path: what its levels pay for, the operands that are gone on with, and what
stands above the first level. -/
theorem path_length (h : n.AllParsed T) {path : List Child} (down : n.Path path) :
    2 * path.length ≤ 7 * n.along leastRise path + 2 * n.along goesOn path + 2 * n.slack := by
  induction down with
  | nil => exact Nat.zero_le _
  | @cons n c path mem below ih =>
    obtain ⟨own, parts⟩ := allParsed_iff.1 h
    have first : 2 * c.2.slack + 2 ≤ 7 * n.leastRise c + 2 * n.goesOn c + 2 * n.slack := pays own c mem
    have rest := ih (parts c mem)
    rw [List.length_cons, along, along]
    omega

end Node

open Node

/-- A statement has no longer paths than its levels pay for. -/
theorem Query.path_length {text : String} {limit : Nat} {q : Query}
    (read : Query.parse text limit = .ok q) {path : List Child} (down : (Node.query q).Path path) :
    2 * (path.length + 1) ≤ 7 * limit + 2 * (Node.query q).along goesOn path + 9 := by
  obtain ⟨lexemes, _, accepted⟩ := Query.statement_of_parse read
  obtain ⟨rest, ran⟩ := Session.statement_eq_ok.1 accepted
  obtain ⟨_, parsed⟩ := Grammar.statementAt_sound (fun _ => True) limit _ q rest (fun _ _ => trivial)
    trivial ran
  obtain ⟨_, need⟩ := Grammar.statementAt_needs (fun _ => True) limit _ q rest (fun _ _ => trivial)
    trivial ran
  have few : (Node.query q).slack ≤ 7 := query_slack_le q
  have levels : (Node.query q).along leastRise path ≤ q.need := most_le_iff_path.1 (Nat.le_refl _) path down
  have length := Node.path_length parsed down
  omega

/-- What is read within a limit is never too deep to be written with three and a half times as many
levels, and one more for every operand on a path that an operator, a cast or a set operation goes on
with: under the limits that are the default, up to 59 of them. -/
theorem parse_not_tooDeep {text : String} {limit levels most : Nat} {q : Query} {d : Dialect}
    (read : Query.parse text limit = .ok q)
    (few : ∀ path, (Node.query q).Path path → (Node.query q).along goesOn path ≤ most)
    (enough : 7 * limit + 2 * most + 9 ≤ 2 * levels) (k : Nat) :
    (Node.query q).write d levels ≠ .error (.tooDeep k) := by
  refine ((Node.query q).write_limit d (Nat.le_refl levels)).2.2 levels (fun path down => ?_) k
  have length := Query.path_length read down
  have := few path down
  omega

theorem parse_not_tooDeep_sum : ∃ q, Query.parse "select 1 + 2 * - 3 + 4" Session.defaultLimit = .ok q ∧
    (∀ path, (Node.query q).Path path → (Node.query q).along goesOn path ≤ 59) ∧
    7 * Session.defaultLimit + 2 * 59 + 9 ≤ 2 * Node.defaultLimit ∧
    ∀ k, (Node.query q).write .standard Node.defaultLimit ≠ .error (.tooDeep k) := by
  obtain ⟨q, read, two⟩ := Except.toOption_map_eq_some (b := 2)
    (r := Query.parse "select 1 + 2 * - 3 + 4" Session.defaultLimit)
    (f := fun q => (Node.query q).most goesOn) (by rw [Query.parse_eq_run]; decide +kernel)
  have few : ∀ path, (Node.query q).Path path → (Node.query q).along goesOn path ≤ 59 :=
    most_le_iff_path.1 (by omega)
  exact ⟨q, read, few, by decide, parse_not_tooDeep read few (by decide)⟩

end SqlQuery
