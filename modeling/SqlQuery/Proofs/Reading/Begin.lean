import SqlQuery.Proofs.Reading.Keyword

/-!
The tokens that values and queries begin with.
-/

namespace SqlQuery

open Grammar

variable {d : Dialect} {e left right : Expr}

namespace Query

theorem Begins.of_keyword {q : Query} (word : String) (mem : word ∈ Token.queryKeywords)
    (h : ∃ ts, q.tokens d = keywordToken word :: ts) : q.Begins d := by
  obtain ⟨ts, tokens⟩ := h
  exact ⟨keywordToken word, ts, tokens, by simp [Token.opensQuery, keywordToken, mem]⟩

theorem Begins.extend {q other : Query} {more : List Token} (h : other.Begins d)
    (tokens : q.tokens d = other.tokens d ++ more) : q.Begins d := by
  obtain ⟨t, ts, same, opens⟩ := h
  exact ⟨t, ts ++ more, by rw [tokens, same, List.cons_append], opens⟩

theorem begins_simple (s : Select) : (Query.simple s).Begins d := by
  obtain ⟨commonTables, ⟨distinct, items⟩, _⟩ := s
  have select : (Mark.plain "select").tokens = [keywordToken "select"] := by decide
  have opening : (Mark.plain "with").tokens = [keywordToken "with"] := by decide
  cases commonTables with
  | none =>
    refine Begins.of_keyword "select" (by decide) ?_
    cases distinct <;>
      simp [Query.tokens, Query.marks, Select.marks, withMarks, SelectClause.marks, select]
  | some w =>
    obtain ⟨recursive, tables⟩ := w
    refine Begins.of_keyword "with" (by decide) ?_
    simp [Query.tokens, Query.marks, Select.marks, withMarks, With.marks, opening]

theorem tokens_binary (left right : Query) (operator : String) :
    (Query.binary left operator right).tokens d =
      left.tokens d ++ ((rawMark operator).tokens ++ right.tokens d) := by
  simp [Query.tokens, Query.marks]

/-- Every query begins with a keyword of its own. -/
theorem begins : (q : Query) → q.Begins d
  | .values rows => by
    have values : (Mark.plain "values").tokens = [keywordToken "values"] := by decide
    refine Begins.of_keyword "values" (by decide) ?_
    simp [Query.tokens, Query.marks, values]
  | .simple s => begins_simple s
  | .binary left operator right => (begins left).extend (tokens_binary left right operator)

end Query

namespace Expr

/-- An operator after a value leaves its beginning as it is. -/
theorem Begins.extend {operator : String} {power : Nat} {more : List Token} (h : left.Begins d)
    (found : Power.infix? operator = some power) (first : e.first = left.first)
    (tokens : e.tokens d = left.tokens d ++ Power.token operator :: more) : e.Begins d := by
  obtain ⟨t, ts, same, begin⟩ := h
  have lead : e.leadName? = left.leadName? := by rw [leadName?, leadName?, first]
  refine ⟨t, ts ++ Power.token operator :: more, by rw [tokens, same, List.cons_append],
    begin.opens, fun kind => lead ▸ begin.name kind, fun kind => ?_, ?_⟩
  · rw [first]
    refine (begin.paren kind).imp_right (Or.imp_right fun query => ?_)
    cases ts with
    | nil => simp at query
    | cons u ts => exact query
  · cases ts with
    | nil =>
      have other : ∀ entry ∈ Power.keywords ++ Power.symbols,
          (Power.token entry.1).isCommand "from" = false := by decide +kernel
      intro u head
      obtain rfl : Power.token operator = u := by simpa using head
      exact other _ (Power.infix?_mem found)
    | cons u ts => exact begin.second

/-- An operand that begins with neither a name nor a parenthesis. -/
theorem Begins.of_token {t : Token} {ts : List Token} (tokens : e.tokens d = t :: ts)
    (opens : t.opensValue = true) (name : t.kind ≠ .identifier) (paren : t.kind ≠ .openParen)
    (second : ∀ u ∈ ts.head?, u.isCommand "from" = false) : e.Begins d :=
  ⟨t, ts, tokens, opens, fun kind => absurd kind name, fun kind => absurd kind paren, second⟩

theorem Begins.of_name {name : String} {ts : List Token}
    (tokens : e.tokens d = wordToken name :: ts) (lead : e.leadName? = some name)
    (second : ∀ u ∈ ts.head?, u.isCommand "from" = false) : e.Begins d :=
  ⟨wordToken name, ts, tokens, rfl, fun _ => lead, (fun kind => by cases kind), second⟩

/-- No value begins with `from`. -/
theorem Begins.not_from (h : e.Begins d) (ts : List Token) :
    ∀ u ∈ (e.tokens d ++ ts).head?, u.isCommand "from" = false :=
  lacks_of_begins h fun _ opens => Token.not_command_of_opensValue opens (by decide)

theorem begins_binary {operator : String} {power : Nat}
    (found : Power.infix? operator = some power) (h : left.Begins d) :
    (Expr.binary left operator right).Begins d :=
  h.extend found rfl (tokens_binary found)

theorem begins_between {lower upper : Expr} {negated : Bool} (h : left.Begins d) :
    (Expr.between left lower upper negated).Begins d :=
  h.extend (infix?_between negated) rfl (tokens_between negated)

theorem begins_cast {ref : TypeRef} (h : left.Begins d) (primary : left.isPrimary = true) :
    (Expr.cast left ref).Begins d := by
  have first : (Expr.cast left ref).first = left.first := by rw [Expr.first, if_pos primary]
  have found : Power.infix? "::" = some Power.cast := by decide
  exact h.extend found first (tokens_cast primary)

theorem begins_castCall {ref : TypeRef} (other : e.isPrimary = false) :
    (Expr.cast e ref).Begins d := by
  have tokens : (Expr.cast e ref).tokens d = _ := tokens_castCall other
  exact .of_token tokens rfl (by simp [keywordToken]) (by simp [keywordToken]) (lacks_head rfl)

theorem begins_literal (value : Literal) : (Expr.literal value).Begins d := by
  have tokens : (Expr.literal value).tokens d = [value.token] := rfl
  cases value with
  | boolean value =>
    cases value <;> exact .of_token tokens (by decide) (by decide) (by decide) (by simp)
  | _ => exact .of_token tokens rfl (by simp [Literal.token]) (by simp [Literal.token]) (by simp)

theorem begins_parameter (name : String) : (Expr.parameter name).Begins d := by
  have tokens : (Expr.parameter name).tokens d = [⟨.parameter, name⟩] := rfl
  exact .of_token tokens rfl (by simp) (by simp) (by simp)

theorem dotted_head (namespaces : List String) (name : String) (ts : List Token)
    (plain : ∀ u ∈ ts.head?, u.isCommand "from" = false) :
    ∃ more, dotted namespaces ++ wordToken name :: ts =
      wordToken (namespaces.headD name) :: more ∧ ∀ u ∈ more.head?, u.isCommand "from" = false := by
  cases namespaces with
  | nil => exact ⟨ts, rfl, plain⟩
  | cons first namespaces => exact ⟨dotToken :: _, rfl, lacks_head rfl⟩

theorem begins_column (ref : ColumnRef) : (Expr.column ref).Begins d := by
  obtain ⟨more, tokens, plain⟩ := dotted_head ref.namespaces ref.column [] (by simp)
  exact .of_name ((tokens_column ref).trans tokens) rfl plain

theorem begins_function {call : FunctionCall} (fits : IsPlain call.name) :
    (Expr.function call).Begins d := by
  obtain ⟨more, tokens, plain⟩ := dotted_head call.namespaces call.name (openToken :: _)
    (lacks_head rfl)
  exact .of_name ((tokens_call call fits).trans tokens) rfl plain

theorem begins_unary {operator : String} {power : Nat}
    (found : Power.prefix? operator = some power) (h : e.Begins d) :
    (Expr.unary operator e).Begins d := by
  obtain ⟨_, _, opens⟩ := prefix_tokens _ (Power.prefix?_mem found)
  have second := h.not_from []
  rw [List.append_nil] at second
  refine .of_token (tokens_unary found) opens ?_ ?_ second <;>
  · simp only [Power.token]
    split <;> simp

theorem begins_exists (q : Query) : (Expr.unary "exists" (.inlineQuery q)).Begins d := by
  have tokens := tokens_exists (d := d) q
  rw [tokens_inlineQuery] at tokens
  exact .of_token tokens rfl (by simp [keywordToken]) (by simp [keywordToken]) (lacks_head rfl)

theorem begins_arrayList (es : List Expr) : (Expr.array (.list es)).Begins d := by
  have tokens := tokens_arrayList (d := d) es
  exact .of_token tokens rfl (by simp [keywordToken]) (by simp [keywordToken]) (lacks_head rfl)

theorem begins_arrayQuery (q : Query) : (Expr.array (.inlineQuery q)).Begins d := by
  have tokens := tokens_arrayQuery (d := d) q
  rw [tokens_inlineQuery] at tokens
  exact .of_token tokens rfl (by simp [keywordToken]) (by simp [keywordToken]) (lacks_head rfl)

theorem begins_case {subject : Option Expr} {switch : Switch} (some : switch.branches ≠ [])
    (h : ∀ e ∈ subject, e.Begins d) : (Expr.case subject switch).Begins d := by
  obtain ⟨bs, otherwise⟩ := switch
  have tokens := tokens_case (d := d) subject bs otherwise
  refine .of_token tokens rfl (by simp [keywordToken]) (by simp [keywordToken]) ?_
  cases subject with
  | none =>
    obtain ⟨b, bs, rfl⟩ := List.exists_cons_of_ne_nil some
    exact lacks_head rfl
  | some e => exact (h e rfl).not_from _

theorem begins_paren {inner : Expr} (h : inner.Begins d) : (Expr.paren inner).Begins d :=
  ⟨openToken, _, tokens_paren inner, rfl, (fun kind => by cases kind),
    fun _ => .inl ⟨inner, rfl⟩, h.not_from _⟩

theorem begins_tuple {es : List Expr} (some : es ≠ []) (h : ∀ e ∈ es, e.Begins d) :
    (Expr.tuple es).Begins d := by
  obtain ⟨e, es, rfl⟩ := List.exists_cons_of_ne_nil some
  have tokens : (Expr.tuple (e :: es)).tokens d = openToken :: (e.tokens d ++
      ((es.map (Expr.tokens d)).flatMap (commaToken :: ·) ++ [closeToken])) := by
    simp [tokens_tuple, commaTokens]
  exact ⟨openToken, _, tokens, rfl, (fun kind => by cases kind), fun _ => .inr (.inl rfl),
    (h e List.mem_cons_self).not_from _⟩

theorem begins_inlineQuery (q : Query) : (Expr.inlineQuery q).Begins d := by
  obtain ⟨t, ts, tokens, opens⟩ := q.begins (d := d)
  refine ⟨openToken, _, tokens_inlineQuery q, rfl, (fun kind => by cases kind), fun _ => ?_, ?_⟩
  · rw [tokens]
    exact .inr (.inr opens)
  · have head := query_head q.begins [closeToken] (d := d)
    exact head.lacks (by decide)

theorem begins_specifiedString {specifier : String} {value : Literal}
    (fits : FitsSpecifier specifier value) : (Expr.specifiedString specifier value).Begins d := by
  by_cases tight : specifier ∈ tightSpecifiers
  · exact .of_token (tokens_tightString tight value) rfl (by simp) (by simp) (by simp)
  · rw [FitsSpecifier, if_neg tight] at fits
    obtain ⟨word, lower, ⟨text, rfl⟩, _⟩ := fits
    exact .of_name (tokens_typedString tight word lower _) rfl (lacks_head rfl)

end Expr

end SqlQuery
