import SqlQuery.Proofs.Reading.Token

/-!
Expressions are read back from their tokens. The operators along the left side of an expression are
read in one loop, so what is said of an expression is said with the operators still to come.
-/

namespace SqlQuery

variable (d : Dialect)

/-- At this level values are read back from their tokens. -/
def Level.ReadsValue (level : Level) (e : Expr) : Prop :=
  ∀ floor rest, floor ≤ e.spine → Closed (min floor e.edge) rest →
    (level.expr floor).Gives (e.tokens d ++ rest) e rest

theorem Level.ReadsValue.whole {d : Dialect} {level : Level} {e : Expr} {rest : List Token}
    (h : level.ReadsValue d e) (closed : Closed 0 rest) :
    (level.expr 0).Gives (e.tokens d ++ rest) e rest :=
  h 0 rest (Nat.zero_le _) (closed.mono (Nat.zero_le _))

/-- What may follow a query that is nested in nothing or in parentheses. -/
def EndsQuery (rest : List Token) : Prop := HeadIn [closeToken, semicolon] rest

def Level.ReadsQuery (level : Level) (q : Query) : Prop :=
  ∀ rest, EndsQuery rest → level.query.Gives (q.tokens d ++ rest) q rest

namespace Grammar

open Rule

/-- The operand is read back, however tightly what follows binds. -/
def ReadsOperand (scope : Scope) (e : Expr) : Prop :=
  ∀ rest, Closed e.edge rest → (operand scope).Gives (e.tokens d ++ rest) e rest

/-- The expression is read back together with the operators that follow it. -/
def ReadsSpine (scope : Scope) (e : Expr) : Prop :=
  ∀ floor suffixes mid rest, floor ≤ e.spine → Closed e.edge mid →
    Yielding (suffix scope floor) mid suffixes rest →
      (expression scope floor).Gives (e.tokens d ++ mid) (suffixes.foldl Suffix.apply e) rest

variable {d} {scope : Scope} {level : Level} {e left right : Expr} {rest : List Token}

theorem ReadsOperand.spine (h : ReadsOperand d scope e) : ReadsSpine d scope e := by
  intro floor suffixes mid rest _ closed suffixes'
  exact (h mid closed).bind (suffixes'.many.bind (Gives.ret _ _))

/-- No operator is read that binds less tightly than the floor. -/
theorem suffix_stops {floor : Nat}
    (loose : ∀ t ∈ rest.head?, ∀ power, Power.binary? t = some power → power < floor) :
    (suffix scope floor).Gives rest none rest := by
  refine (Gives.accept_none ?_).bind (Gives.ret _ _)
  intro t head
  unfold operatorFrom
  split
  case h_1 => rfl
  case h_2 power found => exact if_pos (loose t head power found)

/-- No operator is read before tokens that are closed at the floor. -/
theorem suffix_none {floor : Nat} (closed : Closed floor rest) :
    (suffix scope floor).Gives rest none rest :=
  suffix_stops fun t head => (closed t head).2

theorem ReadsSpine.value {n : Nat} (h : ReadsSpine d (scopeAt n) e) :
    (levelAt (n + 1)).ReadsValue d e := by
  intro floor rest low closed
  simp only [levelAt, exprAt_succ]
  have ended : Yielding (suffix (scopeAt n) floor) rest [] rest :=
    .done (suffix_none (closed.mono (Nat.min_le_left _ _)))
  exact h floor [] rest rest low (closed.mono (Nat.min_le_right _ _)) ended

theorem suffix_some {floor power : Nat} {operator : String} {s : Suffix} {ts : List Token}
    (found : Power.infix? operator = some power) (high : floor ≤ power)
    (h : (operatorSuffix scope operator (power + 1)).Gives ts s rest) :
    (suffix scope floor).Gives (Power.token operator :: ts) (some s) rest := by
  refine (Gives.accept_some (a := (operator, power + 1)) ?_).bind (h.map some)
  simp only [operatorFrom, Power.binary?_token found]
  exact if_neg (Nat.not_lt.2 high)

/-- One more operator after an expression. -/
theorem ReadsSpine.extend {operator : String} {power floor : Nat} {s : Suffix}
    {suffixes : List Suffix} {ts mid rest : List Token} (h : ReadsSpine d scope left)
    (found : Power.infix? operator = some power) (low : floor ≤ min power left.spine)
    (edge : power < left.edge)
    (read : (operatorSuffix scope operator (power + 1)).Gives (ts ++ mid) s mid)
    (others : Yielding (suffix scope floor) mid suffixes rest) :
    (expression scope floor).Gives (left.tokens d ++ (Power.token operator :: ts ++ mid))
      (suffixes.foldl Suffix.apply (s.apply left)) rest := by
  have closed : Closed left.edge (Power.token operator :: ts ++ mid) := by
    intro t head
    obtain rfl : Power.token operator = t := by simpa using head
    refine ⟨Power.extends_token found, fun other same => ?_⟩
    rw [Power.binary?_token found] at same
    cases same
    exact edge
  refine h floor (s :: suffixes) _ rest (Nat.le_trans low (Nat.min_le_right _ _)) closed ?_
  refine .step (suffix_some found (Nat.le_trans low (Nat.min_le_left _ _)) read) ?_ others
  simp only [List.cons_append, List.length_cons, List.length_append]
  omega

theorem startsQuery_gives (n : Nat) (ts : List Token) :
    (startsQuery n).Gives ts (ts[n]?.any Token.opensQuery) ts := by
  have same : (fun t : Token => t.isCommand "select" || t.isCommand "with" || t.isCommand "values") =
      Token.opensQuery := by
    funext t
    cases kind : t.kind == .command <;>
      simp only [Token.isCommand, Token.opensQuery, Token.queryKeywords, kind, Bool.true_and,
        Bool.false_and, List.contains_cons, List.contains_nil, Bool.or_assoc, Bool.or_false]
  rw [startsQuery, same]
  exact Gives.look n _ ts

theorem lacks_of_begins {p : Token → Bool} {ts : List Token} (begins : e.Begins d)
    (h : ∀ t, t.opensValue = true → p t = false) : Lacks p (e.tokens d ++ ts) := by
  obtain ⟨t, more, tokens, begin⟩ := begins
  rw [tokens]
  intro u head
  obtain rfl : t = u := by simpa using head
  exact h t begin.opens

theorem read_exprs (es : List Expr) :
    (exprsMarks d es).map Mark.read = es.map (Expr.tokens d) := by
  rw [exprsMarks_eq, List.map_map]
  rfl

theorem closed_comma (bound : Nat) (rest : List Token) : Closed bound (commaToken :: rest) :=
  Closed.of_end (by decide) rfl

theorem closed_close (bound : Nat) (rest : List Token) : Closed bound (closeToken :: rest) :=
  Closed.of_end (by decide) rfl

/-- A list of values, before what follows no value and is no comma. -/
theorem values_give {es : List Expr} (some : es ≠ []) (h : ∀ e ∈ es, level.ReadsValue d e)
    (closed : Closed 0 rest) (ended : Lacks (isKind .comma) rest) :
    (values level).Gives (commaTokens (es.map (Expr.tokens d)) ++ rest) es rest :=
  Gives.commaList _ some (fun e mem _ follow => (h e mem).whole follow) (closed_comma 0) closed ended

theorem valuesBefore_give {es : List Expr} {close : Kind} {t : Token} {ts : List Token}
    (kind : t.kind = close) (closing : close = .closeParen ∨ close = .closeBracket)
    (h : ∀ e ∈ es, level.ReadsValue d e) (begins : ∀ e ∈ es, e.Begins d) :
    (valuesBefore close level).Gives (commaTokens (es.map (Expr.tokens d)) ++ t :: ts) es
      (t :: ts) := by
  cases es with
  | nil => exact (Gives.look_true (by simp [isKind, kind])).bind (Gives.iteTrue rfl (Gives.ret _ _))
  | cons e es =>
    have lacks : Lacks (isKind close) (commaTokens ((e :: es).map (Expr.tokens d)) ++ t :: ts) := by
      simp only [List.map_cons, commaTokens, List.append_assoc]
      refine lacks_of_begins (begins e List.mem_cons_self) fun t opens =>
        Token.not_kind_of_opensValue opens ?_
      rcases closing with rfl | rfl <;> simp
    refine (Gives.look_false lacks).bind (Gives.iteFalse (by simp) ?_)
    refine values_give (by simp) h (Closed.of_end ?_ ?_) ?_
    · rcases closing with rfl | rfl <;> simp [Token.extendsValue, kind]
    · rcases closing with rfl | rfl <;> simp [Power.binary?, kind]
    · intro u head
      obtain rfl : t = u := by simpa using head
      rcases closing with rfl | rfl <;> simp [isKind, kind]

theorem tokens_binary {operator : String} {power : Nat}
    (found : Power.infix? operator = some power) : (Expr.binary left operator right).tokens d =
      left.tokens d ++ Power.token operator :: right.tokens d := by
  simp [Expr.tokens, Expr.marks, Power.tokens_infix found]

theorem tokens_tuple (es : List Expr) : (Expr.tuple es).tokens d =
    openToken :: commaTokens (es.map (Expr.tokens d)) ++ [closeToken] := by
  simp [Expr.tokens, Expr.marks, ← read_exprs]

/-- The list after `in`, whatever its length. -/
theorem membership_tuple {es : List Expr} {power : Nat} (inside : scope.inside = some level)
    (h : ∀ e ∈ es, level.ReadsValue d e) (begins : ∀ e ∈ es, e.Begins d) :
    (membership scope power).Gives ((Expr.tuple es).tokens d ++ rest) (.tuple es) rest := by
  rw [tokens_tuple]
  have list : (scope.enter fun level => do
      let values ← valuesBefore .closeParen level
      closeParen
      return values).Gives (commaTokens (es.map (Expr.tokens d)) ++ closeToken :: rest) es rest := by
    refine Gives.enter inside ?_
    refine (valuesBefore_give (t := closeToken) rfl (.inl rfl) h begins).bind ?_
    exact (Gives.require rfl).bind (Gives.ret _ _)
  have second : ((commaTokens (es.map (Expr.tokens d)) ++ closeToken :: rest)[0]?.any
      Token.opensQuery) = false := by
    cases es with
    | nil => rfl
    | cons e es =>
      obtain ⟨t, more, tokens, begin⟩ := begins e List.mem_cons_self
      simp [commaTokens, tokens, Token.not_query_of_opensValue begin.opens]
  simp only [List.cons_append, List.append_assoc, List.nil_append]
  refine (Gives.look_true rfl).bind ((startsQuery_gives 1 _).bind ?_)
  rw [List.getElem?_cons_succ, second]
  refine Gives.iteFalse (by decide) ?_
  exact (Gives.skip _ _).bind (list.map _)

/-- Any other value after `in` begins with no parenthesis but that of a query. -/
theorem membership_value {power : Nat} {ts : List Token} (begins : right.Begins d)
    (single : (∀ inner, right.first ≠ .paren inner) ∧ ¬ right.first.isTuple)
    (h : (scope.here.expr power).Gives (right.tokens d ++ ts) right ts) :
    (membership scope power).Gives (right.tokens d ++ ts) right ts := by
  obtain ⟨t, more, tokens, begin⟩ := begins
  rw [tokens] at h ⊢
  refine (Gives.look 0 _ _).bind ((startsQuery_gives 1 _).bind (Gives.iteTrue ?_ h))
  by_cases kind : t.kind = .openParen
  · have query : more.head?.any Token.opensQuery = true := by
      rcases begin.paren kind with ⟨inner, same⟩ | tuple | query
      · exact absurd same (single.1 inner)
      · exact absurd tuple single.2
      · exact query
    have second : ((more ++ ts)[0]?.any Token.opensQuery) = true := by
      cases more with
      | nil => simp at query
      | cons u more => simpa using query
    simp [second]
  · simp [isKind, kind]

theorem operatorSuffix_binary {operator : String} {power : Nat} {ts : List Token}
    (plain : operator ∉ Power.special) (member : Power.isMembership operator = false)
    (h : (scope.here.expr power).Gives (right.tokens d ++ ts) right ts) :
    (operatorSuffix scope operator power).Gives (right.tokens d ++ ts) (.binary operator right)
      ts := by
  simp only [Power.special, List.mem_cons, List.not_mem_nil, or_false, not_or] at plain
  simp only [Power.isMembership, Bool.or_eq_false_iff, beq_eq_false_iff_ne] at member
  refine Gives.iteFalse (by simp [plain]) (Gives.iteFalse (by simp [plain]) ?_)
  exact Gives.iteFalse (by simp [member]) (h.map _)

theorem operatorSuffix_membership {operator : String} {power : Nat} {ts : List Token}
    (member : Power.isMembership operator = true)
    (h : (membership scope power).Gives (right.tokens d ++ ts) right ts) :
    (operatorSuffix scope operator power).Gives (right.tokens d ++ ts) (.binary operator right)
      ts := by
  simp only [Power.isMembership, Bool.or_eq_true, beq_iff_eq] at member
  have plain : operator ≠ "::" ∧ operator ≠ "between" ∧ operator ≠ "not between" := by
    rcases member with rfl | rfl <;> decide
  refine Gives.iteFalse (by simp [plain]) (Gives.iteFalse (by simp [plain]) ?_)
  exact Gives.iteTrue (by simpa using member) (h.map _)

theorem binary_spine {operator : String} {power : Nat} (leftReads : ReadsSpine d scope left)
    (found : Power.infix? operator = some power) (edge : power < left.edge)
    (rightReads : ∀ mid, Closed (Expr.binary left operator right).edge mid →
      (operatorSuffix scope operator (power + 1)).Gives (right.tokens d ++ mid)
        (.binary operator right) mid) : ReadsSpine d scope (.binary left operator right) := by
  intro floor suffixes mid rest low closed others
  have infixPower : Power.infixPower operator = power := by simp [Power.infixPower, found]
  rw [Expr.spine, infixPower] at low
  have read := leftReads.extend found low edge (rightReads mid closed) others
  rw [tokens_binary found]
  simpa [Suffix.apply] using read

theorem infix?_between (negated : Bool) :
    Power.infix? (betweenWord negated) = some Power.between := by
  cases negated <;> decide

theorem tokens_between {operand lower upper : Expr} (negated : Bool) :
    (Expr.between operand lower upper negated).tokens d = operand.tokens d ++
      Power.token (betweenWord negated) ::
        (lower.tokens d ++ Power.token "and" :: upper.tokens d) := by
  have word : (Mark.plain (betweenWord negated)).tokens = [Power.token (betweenWord negated)] := by
    cases negated <;> decide
  have and : (Mark.plain "and").tokens = [Power.token "and"] := by decide
  simp [Expr.tokens, Expr.marks, word, and]

theorem between_spine {operand lower upper : Expr} {negated : Bool}
    (operandReads : ReadsSpine d scope operand) (operandEdge : Power.between < operand.edge)
    (lowerReads : scope.here.ReadsValue d lower) (lowerSpine : Power.between + 1 ≤ lower.spine)
    (lowerEdge : Power.infixPower "and" < lower.edge)
    (upperReads : scope.here.ReadsValue d upper) (upperSpine : Power.between + 1 ≤ upper.spine) :
    ReadsSpine d scope (.between operand lower upper negated) := by
  intro floor suffixes mid rest low closed others
  have bounds : (operatorSuffix scope (betweenWord negated) (Power.between + 1)).Gives
      (lower.tokens d ++ Power.token "and" :: upper.tokens d ++ mid)
      (.between negated lower upper) mid := by
    have word : (betweenWord negated == "not between") = negated := by cases negated <;> decide
    refine Gives.iteFalse (by cases negated <;> decide) ?_
    refine Gives.iteTrue (by cases negated <;> decide) ?_
    rw [List.append_assoc]
    refine (lowerReads _ _ lowerSpine ?_).bind ?_
    · intro t head
      obtain rfl : Power.token "and" = t := by simpa using head
      refine ⟨by decide, fun power same => ?_⟩
      have and : Power.infix? "and" = some (Power.infixPower "and") := by decide
      rw [Power.binary?_token and] at same
      obtain rfl := Option.some.inj same
      exact Nat.lt_min.2 ⟨by decide, lowerEdge⟩
    refine (Gives.require (t := Power.token "and") (by decide)).bind ?_
    refine (upperReads _ _ upperSpine closed).bind ?_
    rw [word]
    exact Gives.ret _ _
  rw [tokens_between]
  have read := operandReads.extend (infix?_between negated) low operandEdge bounds others
  simpa [Suffix.apply] using read

end Grammar

end SqlQuery
