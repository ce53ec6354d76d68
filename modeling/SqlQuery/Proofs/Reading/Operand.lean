import SqlQuery.Proofs.Reading.Type
import SqlQuery.Proofs.Reading.Window

/-!
Operands are read back: literals, names and calls, what stands in parentheses or after a keyword,
and an operand with an operator in front of it.
-/

namespace SqlQuery.Grammar

open Rule

variable {d : Dialect} {scope : Scope} {level : Level} {e : Expr} {rest : List Token}

theorem edge_of_isPrimary (h : e.isPrimary = true) : e.edge = Power.unbounded := by
  cases e <;> first | rfl | cases h

theorem tokens_cast {ref : TypeRef} (primary : e.isPrimary = true) :
    (Expr.cast e ref).tokens d = e.tokens d ++ Power.token "::" :: Mark.read (ref.marks d) := by
  have colons : (Mark.plain "::").tokens = [Power.token "::"] := by decide
  simp [Expr.tokens, Expr.marks, castMarks, primary, colons]

theorem cast_spine {ref : TypeRef} (input : ReadsSpine d scope e) (primary : e.isPrimary = true)
    (fits : IsTypeName ref.name) (argument : ∀ a ∈ ref.argument,
      ∃ es, a = .list es ∧ es ≠ [] ∧ ∀ v ∈ es, scope.here.ReadsValue d v) :
    ReadsSpine d scope (.cast e ref) := by
  intro floor suffixes mid rest low closed others
  have suffix : (operatorSuffix scope "::" (Power.cast + 1)).Gives
      (Mark.read (ref.marks d) ++ mid) (.cast ref) mid :=
    Gives.iteTrue rfl ((typeRef_gives fits argument closed).map _)
  have edge : Power.cast < e.edge := by
    rw [edge_of_isPrimary primary]
    decide
  rw [Expr.spine, if_pos primary] at low
  have read := input.extend (by decide) low edge suffix others
  rw [tokens_cast primary]
  simpa [Suffix.apply] using read

/-- An operand without an operator in front of it. -/
theorem operand_of_primary {t : Token} {ts : List Token} (plain : Power.unary? t = none)
    (h : (primary scope t).Gives (t :: ts) e rest) : (operand scope).Gives (t :: ts) e rest := by
  refine (Gives.peek _).bind ?_
  simp only [List.head?_cons, plain]
  exact h

theorem operand_of_keyword {word : String} {ts : List Token}
    (plain : Power.unary? (keywordToken word) = none)
    (h : (keywordOperand scope word).Gives (keywordToken word :: ts) e rest) :
    (operand scope).Gives (keywordToken word :: ts) e rest :=
  operand_of_primary plain h

theorem isQuoted_spellString (value : String) : isQuoted (String.ofList (spellString value)) := by
  simp [isQuoted, spellString]

theorem ofText_string {value : String} (fits : Literal.Fits (.string value)) :
    Literal.ofText (String.ofList (spellString value)) = .string value := by
  rw [Literal.ofText, if_pos (isQuoted_spellString value), String.toList_ofList]
  exact congrArg Literal.string fits

theorem literal_operand {value : Literal} (fits : value.Fits) :
    ReadsOperand d scope (.literal value) := by
  intro rest _
  cases value with
  | number text =>
    have value : Literal.ofText text = .number text := by
      have plain : isQuoted text = false := fits
      simp [Literal.ofText, plain]
    refine operand_of_primary (t := ⟨.literal, text⟩) rfl ((Gives.skip _ _).bind ?_)
    rw [value]
    exact Gives.ret _ _
  | string text =>
    refine operand_of_primary (t := Literal.token (.string text)) rfl ((Gives.skip _ _).bind ?_)
    have value := ofText_string fits
    rw [Literal.token, value]
    exact Gives.ret _ _
  | boolean value =>
    cases value with
    | true =>
      refine operand_of_keyword (by decide) (Gives.iteFalse (by decide) (Gives.iteTrue (by decide) ?_))
      exact (Gives.skip _ _).bind (Gives.ret _ _)
    | false =>
      refine operand_of_keyword (by decide) (Gives.iteFalse (by decide) (Gives.iteTrue (by decide) ?_))
      exact (Gives.skip _ _).bind (Gives.ret _ _)
  | null =>
    refine operand_of_keyword (by decide) (Gives.iteTrue (by decide) ?_)
    exact (Gives.skip _ _).bind (Gives.ret _ _)

theorem parameter_operand (name : String) : ReadsOperand d scope (.parameter name) := by
  intro rest _
  refine operand_of_primary (t := ⟨.parameter, name⟩) rfl ?_
  exact (Gives.skip _ _).bind (Gives.ret _ _)

theorem tokens_paren (inner : Expr) :
    (Expr.paren inner).tokens d = openToken :: inner.tokens d ++ [closeToken] := by
  simp [Expr.tokens, Expr.marks]

theorem tokens_inlineQuery (q : Query) :
    (Expr.inlineQuery q).tokens d = openToken :: q.tokens d ++ [closeToken] := by
  simp [Expr.tokens, Expr.marks, Query.tokens]

theorem nestedQuery_gives {q : Query} (h : level.ReadsQuery d q) :
    (nestedQuery level).Gives (q.tokens d ++ closeToken :: rest) q rest :=
  (h _ (.cons (by decide) rest)).bind ((Gives.require rfl).bind (Gives.ret _ _))

theorem parenthesizedQuery_gives {q : Query} (inside : scope.inside = some level)
    (h : level.ReadsQuery d q) (rest : List Token) : (parenthesizedQuery scope).Gives
      ((Expr.inlineQuery q).tokens d ++ rest) (.inlineQuery q) rest := by
  simp only [tokens_inlineQuery, List.cons_append, List.append_assoc, List.nil_append]
  exact (Gives.require rfl).bind ((Gives.enter inside (nestedQuery_gives h)).map _)

theorem second_query {q : Query} (begins : q.Begins d) (t : Token) (rest : List Token) :
    (t :: (q.tokens d ++ rest))[1]?.any Token.opensQuery = true := by
  obtain ⟨u, more, tokens, opens⟩ := begins
  simpa [tokens] using opens

theorem inlineQuery_operand {q : Query} (inside : scope.inside = some level)
    (h : level.ReadsQuery d q) (begins : q.Begins d) : ReadsOperand d scope (.inlineQuery q) := by
  intro rest _
  have read := parenthesizedQuery_gives inside h rest
  have second := second_query begins openToken (closeToken :: rest)
  simp only [tokens_inlineQuery, List.cons_append, List.append_assoc, List.nil_append] at read ⊢
  refine operand_of_primary rfl ((startsQuery_gives 1 _).bind ?_)
  exact Gives.iteTrue second read

/-- After the parenthesis no query begins, and the values are read. -/
theorem parenthesized_gives {es : List Expr} {next : List Expr → Rule Expr}
    (inside : scope.inside = some level) (some : es ≠ []) (h : ∀ e ∈ es, level.ReadsValue d e)
    (begins : ∀ e ∈ es, e.Begins d) (result : (next es).Gives rest e rest) :
    (startsQuery 1 >>= fun query => if query then parenthesizedQuery scope else do
      skip
      let values ← scope.enter fun level => do
        let values ← values level
        closeParen
        return values
      next values).Gives (openToken :: (commaTokens (es.map (Expr.tokens d)) ++
        closeToken :: rest)) e rest := by
  have second : (commaTokens (es.map (Expr.tokens d)) ++ closeToken :: rest)[0]?.any
      Token.opensQuery = false := by
    cases es with
    | nil => exact absurd rfl some
    | cons e es =>
      obtain ⟨t, more, tokens, begin⟩ := begins e List.mem_cons_self
      simp [commaTokens, tokens, Token.not_query_of_opensValue begin.opens]
  have list : (scope.enter fun level => do
      let values ← values level
      closeParen
      return values).Gives (commaTokens (es.map (Expr.tokens d)) ++ closeToken :: rest) es rest := by
    refine Gives.enter inside ?_
    refine (values_give some h (closed_close 0 rest) (lacks_head rfl)).bind ?_
    exact (Gives.require rfl).bind (Gives.ret _ _)
  refine (startsQuery_gives 1 _).bind ?_
  rw [List.getElem?_cons_succ, second]
  exact Gives.iteFalse (by decide) ((Gives.skip _ _).bind (list.bind result))

theorem paren_operand {inner : Expr} (inside : scope.inside = some level)
    (h : level.ReadsValue d inner) (begins : inner.Begins d) :
    ReadsOperand d scope (.paren inner) := by
  intro rest _
  have tokens : (Expr.paren inner).tokens d ++ rest =
      openToken :: (commaTokens ([inner].map (Expr.tokens d)) ++ closeToken :: rest) := by
    simp [tokens_paren, commaTokens]
  rw [tokens]
  refine operand_of_primary rfl ?_
  exact parenthesized_gives inside (List.cons_ne_nil inner []) (by simpa using h)
    (by simpa using begins) (Gives.ret _ _)

theorem tuple_operand {es : List Expr} (inside : scope.inside = some level)
    (several : 2 ≤ es.length) (h : ∀ e ∈ es, level.ReadsValue d e) (begins : ∀ e ∈ es, e.Begins d) :
    ReadsOperand d scope (.tuple es) := by
  intro rest _
  have tokens : (Expr.tuple es).tokens d ++ rest =
      openToken :: (commaTokens (es.map (Expr.tokens d)) ++ closeToken :: rest) := by
    simp [tokens_tuple]
  rw [tokens]
  refine operand_of_primary rfl ?_
  refine parenthesized_gives inside ?_ h begins ?_
  · rintro rfl
    simp at several
  · match es, several with
    | _ :: _ :: _, _ => exact Gives.ret _ _

end SqlQuery.Grammar
