import SqlQuery.Proofs.Nesting.Clause
import SqlQuery.Proofs.Parsed.Shape

/-!
The levels that a statement needs pay for what stands in brackets of its own along any path, and for
operators in front of operands.
-/

namespace SqlQuery

open Child

namespace Node

/-- Levels that a part which stands in brackets, or behind an operator, has yet to open: the steps down
from it do. -/
def owed : Node → Nat
  | .expr (.paren _) | .expr (.inlineQuery _) | .expr (.case _ _) | .commonTable _ => 2
  | .expr (.tuple _) | .switch _ | .branch _ => 1
  | .expr (.unary operator _) => (["-", "+", "~", "not"].contains operator).toNat
  | _ => 0

/-- A text or a name: nothing that is nested stands below. -/
def isNaming : Node → Bool
  | .expr (.raw _) | .identifier _ | .sourceAlias _ => true
  | _ => false

def isSource : Node → Bool
  | .source _ => true
  | _ => false

/-- The step opens the levels that the part takes and that the node still owes, up to those that the
part owes itself. -/
def Covers (n : Node) (c : Child) : Prop :=
  c.2.isNaming = true ∨ c.cost + n.owed ≤ n.leastRise c + c.2.owed

variable {T : Token → Prop} {n m : Node} {role : String}

theorem covers_of_part (read : n.isLate = false)
    (h : Child.cost (role, m) + n.owed ≤ n.rise (role, m) + m.owed) : n.Covers (role, m) := by
  rw [Covers, leastRise, read, if_neg Bool.false_ne_true]
  exact .inr h

/-- What takes levels owes them itself, but for queries that are sources. A tuple takes a level on top
of that of its values. -/
theorem cost_le (source : role ≠ "datasource") (m : Node) :
    Child.cost (role, m) ≤ m.isTuple.toNat + m.owed := by
  cases m with
  | expr e =>
    cases e with
    | tuple values =>
      have one : (role != "tuple").toNat ≤ 1 := Bool.toNat_le _
      simp only [cost, isNested, isPrefixed, owed, isTuple, Bool.toNat_true, Bool.toNat_false]
      omega
    | _ => simp [cost, isNested, isPrefixed, owed, isTuple]
  | query q => simp [cost, isNested, isPrefixed, beq_false_of_ne source]
  | _ => simp [cost, isNested, isPrefixed, owed]

theorem covers_of_paid (read : n.isLate = false) (single : n.isRows = false)
    (source : role ≠ "datasource") (paid : n.owed ≤ n.partRise (role, m)) : n.Covers (role, m) := by
  have own := cost_le source m
  refine covers_of_part read ?_
  have deeper : n.rise (role, m) = n.partRise (role, m) + m.isTuple.toNat := by
    rw [rise, single, Bool.not_false, Bool.and_true]
  omega

theorem role_ne (other : n.isSource = false) : ∀ c ∈ n.children, c.1 ≠ "datasource" := by
  cases n with
  | source s => cases other
  | expr e =>
    cases e <;>
      simp [children, Expr.children, FunctionCall.children, TypeRef.children, each, maybe, or_imp,
        forall_and]
  | query q =>
    cases q <;> simp [children, Query.children, Select.children, each, maybe, or_imp, forall_and]
  | distinct x => cases x <;> simp [children, Distinct.children]
  | overClause o => cases o <;> simp [children, Over.children]
  | join j =>
    obtain ⟨_, _, _, _ | ⟨_ | _⟩⟩ := j <;> simp [children, JoinCondition.children, each]
  | _ => simp [children, each, maybe, or_imp, forall_and]

/-- What owes no level has no part that takes more than it owes, but for tuples. -/
theorem covers_of_free (read : n.isLate = false) (single : n.isRows = false)
    (other : n.isSource = false) (free : n.owed = 0) : ∀ c ∈ n.children, n.Covers c :=
  fun c mem => covers_of_paid read single (role_ne other c mem) (free ▸ Nat.zero_le _)

theorem unary_covers {operator : String} {operand : Expr} (h : (Expr.unary operator operand).Parsed T) :
    (Node.expr (.unary operator operand)).Covers ("expression", .expr operand) := by
  refine covers_of_paid rfl rfl (by decide) ?_
  cases sign : ["-", "+", "~", "not"].contains operator with
  | false => exact (Nat.le_of_eq (congrArg Bool.toNat sign)).trans (Nat.zero_le _)
  | true =>
    -- Behind a sign or `not` there is a value, which is no list.
    have value : operand.isValue ∧ operator ≠ "exists" := by
      simp only [List.contains_eq_mem, List.mem_cons, List.not_mem_nil, or_false,
        decide_eq_true_eq] at sign
      rcases sign with rfl | rfl | rfl | rfl <;>
        exact ⟨(h.resolve_left (by decide)).1, by decide⟩
    have deeper : (Node.expr operand).listedRise = 1 := by
      cases operand <;> first | rfl | cases value.1
    have opened : (Node.expr (.unary operator operand)).partRise ("expression", .expr operand) = 1 := by
      simp [partRise, value.2, deeper]
    rw [opened]
    exact Bool.toNat_le _

theorem expr_covers {e : Expr} (h : e.Parsed T) :
    ∀ c ∈ (Node.expr e).children, (Node.expr e).Covers c := by
  cases e with
  | unary operator operand => exact forall_pair.2 ⟨.inl rfl, unary_covers h⟩
  | cast input ref =>
    cases late : input.isTest with
    | true =>
      refine forall_pair.2 ⟨.inr ?_, .inr (Nat.zero_le _)⟩
      have free : Child.cost ("input", .expr input) = 0 := by
        cases input with
        | unary operator operand =>
          obtain rfl : operator = "exists" := eq_of_beq late
          rfl
        | binary => rfl
        | _ => cases late
      exact (Nat.le_of_eq free).trans (Nat.zero_le _)
    | false =>
      exact forall_pair.2 ⟨covers_of_paid late rfl (by decide) (Nat.zero_le _),
        covers_of_paid late rfl (by decide) (Nat.zero_le _)⟩
  | paren inner => exact List.forall_mem_singleton.2 (covers_of_paid rfl rfl (by decide) (Nat.le_refl 2))
  | inlineQuery q => exact List.forall_mem_singleton.2 (covers_of_paid rfl rfl (by decide) (Nat.le_refl 2))
  | tuple values => exact forall_each.2 fun e _ => covers_of_paid rfl rfl (by decide) (Nat.le_refl 1)
  | case subject switch =>
    refine List.forall_mem_append.2 ⟨forall_maybe.2 fun e _ => ?_, List.forall_mem_singleton.2 ?_⟩
    · exact covers_of_paid rfl rfl (by decide) (Nat.le_refl 2)
    · exact covers_of_part rfl (Nat.le_refl 2)
  | _ => exact covers_of_free rfl rfl rfl rfl

theorem query_covers (q : Query) : ∀ c ∈ (Node.query q).children, (Node.query q).Covers c := by
  cases q with
  | values rows => exact forall_each.2 fun row _ => covers_of_part rfl (Nat.zero_le _)
  | _ => exact covers_of_free rfl rfl rfl rfl

theorem covers (h : n.Parsed T) : ∀ c ∈ n.children, n.Covers c := by
  cases n with
  | expr e => exact expr_covers h
  | query q => exact query_covers q
  | switch s =>
    refine List.forall_mem_append.2 ⟨forall_each.2 fun b _ => ?_, forall_maybe.2 fun e _ => ?_⟩
    · exact covers_of_part rfl (Nat.le_refl 1)
    · exact covers_of_paid rfl rfl (by decide) (Nat.le_refl 1)
  | branch b =>
    exact forall_pair.2 ⟨covers_of_paid rfl rfl (by decide) (Nat.le_refl 1),
      covers_of_paid rfl rfl (by decide) (Nat.le_refl 1)⟩
  | source s =>
    refine List.forall_mem_cons.2 ⟨?_, forall_maybe.2 fun a _ => .inl rfl⟩
    cases s.data with
    | subQuery q => exact covers_of_part rfl (Nat.le_refl 2)
    | _ => exact covers_of_part rfl (Nat.zero_le _)
  | commonTable t =>
    exact forall_pair.2 ⟨.inl rfl, covers_of_paid rfl rfl (by decide) (Nat.le_refl 2)⟩
  | _ => exact covers_of_free rfl rfl rfl rfl

theorem owed_le (n : Node) : n.owed ≤ n.need + 1 := by
  have opened (read : n.isLate = false) {c : Child} (mem : c ∈ n.children) : n.partRise c ≤ n.need := by
    have first : n.leastRise c + c.2.need ≤ n.need := most_le_iff.1 (Nat.le_refl _) c mem
    rw [leastRise, read, if_neg Bool.false_ne_true, rise] at first
    omega
  have one (few : n.owed ≤ 1) : n.owed ≤ n.need + 1 := Nat.le_trans few (Nat.le_add_left _ _)
  cases n with
  | expr e =>
    cases e with
    | paren inner => exact Nat.le_succ_of_le (opened rfl (c := ("expression", .expr inner)) List.mem_cons_self)
    | inlineQuery q => exact Nat.le_succ_of_le (opened rfl (c := ("query", .query q)) List.mem_cons_self)
    | case subject switch =>
      exact Nat.succ_le_succ (opened rfl (c := ("switch", .switch switch)) (by simp [children, Expr.children]))
    | unary operator operand => exact one (Bool.toNat_le _)
    | _ => exact one (by simp [owed])
  | commonTable t =>
    exact Nat.le_succ_of_le (opened rfl (c := ("query", .query t.query)) (List.mem_cons_of_mem _ List.mem_cons_self))
  | _ => exact one (by simp [owed])

theorem cost_of_isNaming {c : Child} (naming : c.2.isNaming = true) : c.cost = 0 := by
  obtain ⟨role, m⟩ := c
  cases m with
  | expr e => cases e <;> first | rfl | cases naming
  | _ => first | rfl | cases naming

theorem costs_of_isNaming (naming : n.isNaming = true) {path : List Child} (down : n.Path path) :
    Child.costs path = 0 := by
  induction down with
  | nil => rfl
  | @cons n c path mem below ih =>
    have part : c.2.isNaming = true := by
      cases n with
      | sourceAlias a =>
        rcases List.mem_cons.1 mem with rfl | column
        · rfl
        · obtain ⟨name, _, rfl⟩ := List.mem_map.1 column
          rfl
      | identifier name => cases mem
      | expr e =>
        cases e with
        | raw text => cases mem
        | _ => cases naming
      | _ => cases naming
    rw [Child.costs, cost_of_isNaming part, ih part]

/-- By induction on the path: its steps open the levels that are owed on it. -/
theorem costs_le (h : n.AllParsed T) {path : List Child} (down : n.Path path) :
    Child.costs path + n.owed ≤ n.need + 1 := by
  induction down with
  | @nil n => exact (Nat.zero_add _).trans_le n.owed_le
  | @cons n c path mem below ih =>
    obtain ⟨own, parts⟩ := allParsed_iff.1 h
    rw [Child.costs]
    rcases covers own c mem with naming | paid
    · have few := n.owed_le
      rw [cost_of_isNaming naming, costs_of_isNaming naming below]
      omega
    · have rest := ih (parts c mem)
      have first : n.leastRise c + c.2.need ≤ n.need := most_le_iff.1 (Nat.le_refl _) c mem
      omega

end Node

namespace Session

/-- Along every path of a statement that is read, twice the brackets and the operators in front of
operands together are no more than the levels allowed. -/
theorem statement_nesting {L : List Lexeme} {limit : Nat} {query : Query}
    (read : (start L limit).statement.1 = .ok query) {path : List Child}
    (down : (Node.query query).Path path) :
    2 * path.countP Child.isNested + path.countP Child.isPrefixed ≤ limit := by
  obtain ⟨rest, ran⟩ := statement_eq_ok.1 read
  obtain ⟨_, parsed⟩ := Grammar.statementAt_sound (fun _ => True) limit (Lexeme.tokens L) query rest
    (fun _ _ => trivial) trivial ran
  obtain ⟨_, needs⟩ := Grammar.statementAt_needs (fun _ => True) limit (Lexeme.tokens L) query rest
    (fun _ _ => trivial) trivial ran
  have least : (Node.query query).need + 1 ≤ limit := needs
  have paid := Node.costs_le parsed down
  rw [← Child.costs_eq]
  omega

/-- `select ( - a )` takes three levels on the way to `a`, of the five that it needs. -/
theorem statement_nesting_sign :
    let L : List Lexeme := [.ofText .command "select" 0, .ofText .openParen "(" 7,
      .ofText .operator "-" 9, .ofText .identifier "a" 11, .ofText .closeParen ")" 13]
    ∃ query path, (start L 5).statement.1 = .ok query ∧ (Node.query query).Path path ∧
      path.map (·.1) = ["select", "item", "value", "expression", "expression"] ∧
      (path.countP Child.isNested, path.countP Child.isPrefixed) = (1, 1) ∧
      2 * path.countP Child.isNested + path.countP Child.isPrefixed ≤ 5 := by
  intro L
  let sign : Expr := .unary "-" (.columnNamed "a")
  let item : SelectItem := ⟨.paren sign, none⟩
  let query : Query := .simple ⟨none, ⟨none, [item]⟩, none, none, none, none, none, none, none, none, none⟩
  let path : List Child := [("select", .select ⟨none, [item]⟩), ("item", .selectItem item),
    ("value", .expr (.paren sign)), ("expression", .expr sign), ("expression", .expr (.columnNamed "a"))]
  have read : (start L 5).statement.1 = .ok query := statement_eq_ok.2 ⟨_, rfl⟩
  have operand : (Node.expr sign).Path [("expression", .expr (.columnNamed "a"))] :=
    .cons (.tail _ (.head _)) .nil
  have down : (Node.query query).Path path :=
    .cons (.head _) (.cons (.head _) (.cons (.head _) (.cons (.head _) operand)))
  exact ⟨query, path, read, down, rfl, rfl, statement_nesting read down⟩

end Session

end SqlQuery
