import SqlQuery.Proofs.Parsed.Query

/-!
How the operators of a parsed expression are grouped: the tighter ones stand below the looser ones,
operators of one power group to the left, and `not` reaches up to the next `and` or `or`.
-/

namespace SqlQuery

namespace Expr

/-- An operator between operands stands at the root. -/
def isOperation : Expr → Bool
  | .binary _ _ _ | .between _ _ _ _ => true
  | _ => false

/-- A test for membership in a list that is written out, which ends with its parenthesis. -/
def isListTest : Expr → Bool
  | .binary _ operator right => Power.isMembership operator && right.isTuple
  | _ => false

def isNegation : Expr → Bool
  | .unary operator _ => operator == "not"
  | _ => false

def isConnective : Expr → Bool
  | .binary _ operator _ => operator == "and" || operator == "or"
  | _ => false

/-- An operator of this power may stand after the operand. -/
def LeadsTo (power : Nat) (left : Expr) : Prop := left.isListTest = true ∨ left.BindsFrom power

/-- The operands of an operator are grouped as the powers say. The `from` of a call of `extract` is no
operator. -/
def Grouped : Expr → Prop
  | .binary left operator right =>
    (operator = "from" ∧ ∃ field, left = .raw field) ∨
      ∃ power, Power.infix? operator = some power ∧ right.BindsFrom (power + 1) ∧
        left.LeadsTo power ∧ (left.isNegation = true → operator = "and" ∨ operator = "or")
  | .between operand lower upper _ =>
    lower.BindsFrom (Power.between + 1) ∧ upper.BindsFrom (Power.between + 1) ∧
      operand.LeadsTo Power.between ∧ operand.isNegation = false
  | .unary operator operand =>
    (operator ∈ Power.signs → operand.isOperation = false) ∧
      (operator = "not" → operand.isConnective = false)
  | _ => True

theorem bindsFrom_of_infixPower {left right : Expr} {operator : String} {power : Nat}
    (positive : 0 < power) (reaches : power ≤ Power.infixPower operator) :
    (Expr.binary left operator right).BindsFrom power := by
  unfold Power.infixPower at reaches
  cases found : Power.infix? operator with
  | none =>
    rw [found, Option.getD_none] at reaches
    omega
  | some own =>
    rw [found, Option.getD_some] at reaches
    exact ⟨own, found, reaches⟩

theorem bindsFrom_of_spine {e : Expr} {power : Nat} (positive : 0 < power) (h : power ≤ e.spine) :
    e.BindsFrom power := by
  match e with
  | .binary left operator right =>
    rw [spine] at h
    exact bindsFrom_of_infixPower positive (by omega)
  | .between operand lower upper negated =>
    rw [spine] at h
    exact Nat.le_trans h (Nat.min_le_left _ _)
  | .literal _ | .raw _ | .column _ | .function _ | .unary _ _ | .parameter _ | .array _ | .tuple _
  | .list _ | .case _ _ | .cast _ _ | .paren _ | .type _ | .specifiedString _ _ | .inlineQuery _ =>
    exact trivial

theorem leadsTo_of_edge {left : Expr} {power : Nat} (positive : 0 < power) (h : power < left.edge) :
    left.LeadsTo power := by
  match left with
  | .binary _ operator right =>
    rw [edge] at h
    split at h
    · rename_i list
      exact .inl list
    · exact .inr (bindsFrom_of_infixPower positive (by omega))
  | .between operand lower upper negated =>
    rw [edge] at h
    exact .inr (show power ≤ Power.between by omega)
  | .literal _ | .raw _ | .column _ | .function _ | .unary _ _ | .parameter _ | .array _ | .tuple _
  | .list _ | .case _ _ | .cast _ _ | .paren _ | .type _ | .specifiedString _ _ | .inlineQuery _ =>
    exact .inr trivial

theorem edge_le_of_isNegation {left : Expr} (h : left.isNegation = true) : left.edge ≤ 5 := by
  match left with
  | .unary operator operand =>
    rw [beq_iff_eq.1 h, edge, show Power.prefix? "not" = some 5 by decide]
    exact Nat.min_le_left _ _

/-- The right side of an operator binds more tightly than the operator. -/
theorem IsRightSide.bindsFrom {operator : String} {power : Nat} {right : Expr}
    (h : right.IsRightSide operator power) : right.BindsFrom (power + 1) := by
  rcases h with ⟨_, tuple⟩ | ⟨_, spine⟩
  · cases right <;> trivial
  · exact bindsFrom_of_spine (Nat.succ_pos _) spine

theorem IsOperand.bindsFrom {operator : String} {power : Nat} {operand : Expr}
    (h : operand.IsOperand operator) (found : Power.prefix? operator = some power) :
    operand.BindsFrom power := by
  have positive : ∀ entry ∈ Power.prefixes, 0 < entry.2 := by decide
  rw [IsOperand, found] at h
  exact bindsFrom_of_spine (positive _ (Power.prefix?_mem found)) h.2

theorem isConnective_eq_false {e : Expr} (h : e.BindsFrom 5) : e.isConnective = false := by
  have loose : Power.infix? "and" = some 3 ∧ Power.infix? "or" = some 1 := by decide
  match e with
  | .binary left operator right =>
    obtain ⟨own, known, reaches⟩ := h
    rw [← Bool.not_eq_true, isConnective, Bool.or_eq_true, beq_iff_eq, beq_iff_eq]
    rintro (rfl | rfl)
    · have := Option.some.inj (loose.1.symm.trans known)
      omega
    · have := Option.some.inj (loose.2.symm.trans known)
      omega
  | .literal _ | .raw _ | .column _ | .function _ | .unary _ _ | .parameter _ | .array _ | .tuple _
  | .list _ | .case _ _ | .cast _ _ | .paren _ | .between _ _ _ _ | .type _ | .specifiedString _ _
  | .inlineQuery _ => rfl

variable {T : Token → Prop}

/-- Only the cast binds as tightly as a sign, and it is no operator between operands. -/
theorem isOperation_eq_false {e : Expr} (parsed : e.Parsed T) (h : e.BindsFrom 17) :
    e.isOperation = false := by
  have tight : ∀ entry ∈ Power.keywords ++ Power.symbols, 17 ≤ entry.2 →
      entry.1 ∈ Power.special := by decide
  match e with
  | .binary left operator right =>
    obtain ⟨own, known, reaches⟩ := h
    rcases parsed with ⟨rfl, _⟩ | ⟨_, _, plain, _⟩
    · rw [show Power.infix? "from" = none by decide] at known
      cases known
    · exact absurd (tight _ (Power.infix?_mem known) reaches) plain
  | .between operand lower upper negated => exact absurd (show 17 ≤ 9 from h) (by decide)
  | .literal _ | .raw _ | .column _ | .function _ | .unary _ _ | .parameter _ | .array _ | .tuple _
  | .list _ | .case _ _ | .cast _ _ | .paren _ | .type _ | .specifiedString _ _ | .inlineQuery _ =>
    rfl

theorem grouped_of_parsed {e : Expr} (h : (Node.expr e).AllParsed T) : e.Grouped := by
  have powers : ∀ entry ∈ Power.keywords ++ Power.symbols, 0 < entry.2 ∧
      (entry.2 < 5 → entry.1 = "and" ∨ entry.1 = "or") := by decide
  obtain ⟨own, below⟩ := Node.allParsed_iff.1 h
  match e with
  | .binary left operator right =>
    refine Or.imp_right ?_ own
    rintro ⟨power, known, _, _, edge, side⟩
    obtain ⟨positive, loose⟩ := powers _ (Power.infix?_mem known)
    refine ⟨power, known, side.bindsFrom, leadsTo_of_edge positive edge, fun negation => ?_⟩
    exact loose (Nat.lt_of_lt_of_le edge (edge_le_of_isNegation negation))
  | .between operand lower upper negated =>
    obtain ⟨⟨_, edge⟩, ⟨_, lowerSpine, _⟩, _, upperSpine⟩ := own
    refine ⟨bindsFrom_of_spine (by decide) lowerSpine, bindsFrom_of_spine (by decide) upperSpine,
      leadsTo_of_edge (by decide) edge, ?_⟩
    rw [← Bool.not_eq_true]
    intro negation
    exact absurd (Nat.lt_of_lt_of_le edge (edge_le_of_isNegation negation)) (by decide)
  | .unary operator operand =>
    have parsed : (Node.expr operand).AllParsed T :=
      below ("expression", _) (by simp [Node.children, children])
    have bindsFrom {power : Nat} (found : Power.prefix? operator = some power) :
        operand.BindsFrom power := by
      refine (own.resolve_left ?_).bindsFrom found
      rintro rfl
      cases found
    refine ⟨fun sign => ?_, ?_⟩
    · have found : Power.prefix? operator = some 17 := by
        rw [Power.prefix?, if_pos (List.contains_iff_mem.2 sign)]
      exact isOperation_eq_false (Node.allParsed_iff.1 parsed).1 (bindsFrom found)
    · rintro rfl
      exact isConnective_eq_false (bindsFrom (by decide))
  | .literal _ | .raw _ | .column _ | .function _ | .parameter _ | .array _ | .tuple _
  | .list _ | .case _ _ | .cast _ _ | .paren _ | .type _ | .specifiedString _ _ | .inlineQuery _ =>
    exact trivial

end Expr

/-- From whatever tokens an expression is read, with whatever operators left out at its end, the one at
its root reaches the floor and all operators in it, also in its queries, are grouped by their powers. -/
theorem exprAt_grouped {n floor : Nat} {ts rest : List Token} {e : Expr}
    (run : Grammar.exprAt n floor ts = .ok (e, rest)) :
    e.BindsFrom floor ∧ ∀ x, Node.expr x ∈ (Node.expr e).walk → x.Grouped := by
  obtain ⟨_, read⟩ := (Grammar.levelAt_sound (fun _ => True) n).1.expr floor ts e rest
    (fun _ _ => trivial) trivial run
  refine ⟨read.binds, fun x mem => Expr.grouped_of_parsed (T := fun _ => True) ?_⟩
  exact read.all.of_mem_walk mem

/-- `not - a in (1) + 2 between 3 and b and c`, as far as its operators reach the power of `and`, with
`or` left for what comes next. -/
theorem exprAt_grouped_not : ∃ e rest, Grammar.exprAt 6 3 [⟨.command, "not"⟩, ⟨.operator, "-"⟩,
      ⟨.identifier, "a"⟩, ⟨.command, "in"⟩, ⟨.openParen, "("⟩, ⟨.literal, "1"⟩, ⟨.closeParen, ")"⟩,
      ⟨.operator, "+"⟩, ⟨.literal, "2"⟩, ⟨.command, "between"⟩, ⟨.literal, "3"⟩, ⟨.command, "and"⟩,
      ⟨.identifier, "b"⟩, ⟨.command, "and"⟩, ⟨.identifier, "c"⟩, ⟨.command, "or"⟩] =
        .ok (e, rest) ∧ rest.length = 1 ∧
    e.BindsFrom 3 ∧ ∀ x, Node.expr x ∈ (Node.expr e).walk → x.Grouped := by
  have of_run {ts : List Token}
      (h : ∃ e rest, Grammar.exprAt 6 3 ts = .ok (e, rest) ∧ rest.length = 1) :
      ∃ e rest, Grammar.exprAt 6 3 ts = .ok (e, rest) ∧ rest.length = 1 ∧
        e.BindsFrom 3 ∧ ∀ x, Node.expr x ∈ (Node.expr e).walk → x.Grouped := by
    obtain ⟨e, rest, run, one⟩ := h
    exact ⟨e, rest, run, one, exprAt_grouped run⟩
  refine of_run ?_
  refine ⟨_, _, rfl, ?_⟩
  rfl

end SqlQuery
