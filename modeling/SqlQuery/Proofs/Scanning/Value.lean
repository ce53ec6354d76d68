import SqlQuery.Proofs.Scanning.Call

/-!
Every value stands where it may, once the values and queries in it do.
-/

namespace SqlQuery

open Mark Node Child

variable {d : Dialect} [d.Readable] {previous : Option Token} {cs : List Char}

omit [d.Readable] in
theorem marks_function (call : FunctionCall) (plain : IsPlain call.name) :
    (Expr.function call).marks d = qualify call.namespaces (.call call.name) ++
      (inParens (argumentMarks d call.argument) ++ windowMarks d call.window) := by
  obtain ⟨namespaces, name, argument, window⟩ := call
  rw [Expr.marks, FunctionCall.marks, plain.trim, List.append_assoc]

namespace Node.PartsPlaced

variable {n : Node} (h : n.PartsPlaced d)

include h

/-- What a call is given stands in its parentheses, and begins like a value. -/
theorem content {e : Expr} (below : n.Below (.expr e)) (sign : e.leadsLooseSign = false)
    (fits : e.IsListing) (follows : ∀ v : Expr, v.leadsLooseSign = false → v.Follows previous) :
    Settles d previous (e.marks d) ∧ ∀ cs, Ending d (e.marks d) cs →
      ∃ v : Expr, v.OpensAs (spellAll d (e.marks d) ++ cs) := by
  have value (isValue : e.isValue) : Settles d previous (e.marks d) ∧
      ∀ cs, Ending d (e.marks d) cs → ∃ v : Expr, v.OpensAs (spellAll d (e.marks d) ++ cs) := by
    have placed := h.value e below isValue
    exact ⟨placed.settles previous (follows e sign), fun cs ending => ⟨e, placed.opens cs ending⟩⟩
  cases e with
  | list es =>
    obtain ⟨several, _, areValues⟩ := fits
    have each := h.list below areValues
    rw [Expr.marks]
    refine ⟨Expr.values_settle each fun e head =>
      follows e (each e (List.mem_of_mem_head? head)).sign, fun cs _ => ?_⟩
    obtain ⟨first, second, others, rfl⟩ : ∃ first second others, es = first :: second :: others := by
      rcases es with _ | ⟨first, _ | ⟨second, others⟩⟩
      · simp at several
      · simp at several
      · exact ⟨first, second, others, rfl⟩
    refine ⟨first, ?_⟩
    rw [exprsMarks, exprsMarks, commaSeparated_cons_cons, spellAll_append, List.append_assoc]
    exact (each first List.mem_cons_self).opens _ (.comma _)
  | _ => exact value fits

theorem argument {name : String} {argument : Option Expr}
    (below : ∀ e ∈ argument, n.Below (.expr e))
    (signs : ∀ e ∈ argument, e.leadsLooseSign = false) (fits : ∀ e ∈ argument, e.IsArgument name) :
    Settles d (some openToken) (argumentMarks d argument) := by
  have follows (e : Expr) (sign : e.leadsLooseSign = false) : e.Follows (some openToken) :=
    Expr.follows_of_operand sign rfl rfl fun _ => rfl
  cases argument with
  | none => exact .nil
  | some e =>
    have child := below e rfl
    have children := child.children
    rcases fits e rfl with rfl | ⟨q, rfl⟩ | ⟨content, rfl, listing⟩ |
      ⟨field, value, rfl, _, word, lower, isValue⟩ | isContent
    · rw [argumentMarks]
      · exact (Expr.placed_column (by simp [ColumnRef.wildcard])).settles _ (follows _ rfl)
      · intro q same
        cases same
    · exact h.nested child _
    · simp only [Node.children, Expr.children, List.forall_mem_cons, List.not_mem_nil,
        false_implies, implies_true, and_true] at children
      have complete : Keyword.isComplete "distinct" = true := by decide
      have trim : Text.trim "distinct" = "distinct" := by decide
      have marks : argumentMarks d (some (.unary "distinct" content)) =
          .plain "distinct" :: .blank :: content.marks d := by
        simp [argumentMarks, Expr.marks, unaryMarks, trim]
      have sign : content.leadsLooseSign = false :=
        (h.legible _ child).signs content (List.mem_cons_of_mem _ List.mem_cons_self)
      have follows (v : Expr) (sign : v.leadsLooseSign = false) :
          v.Follows (some (keywordToken "distinct")) :=
        Expr.follows_of_operand sign rfl rfl fun _ => rfl
      have placed := h.content children.2 sign listing follows
      rw [marks]
      refine .keyword_apart complete (fun cs ending => ?_) placed.1
      obtain ⟨v, opens⟩ := placed.2 cs ending
      exact opens.alone (by decide) fun same => absurd same (by decide)
    · simp only [Node.children, Expr.children, List.forall_mem_cons, List.not_mem_nil,
        false_implies, implies_true, and_true] at children
      have alone : (Expr.binary (.raw field) "from" value).Legible d := (h.legible _ child).alone
      have chars : IsWordText field.toList := alone.1 field rfl
      have trim : Text.trim "from" = "from" := by decide
      have marks : argumentMarks d (some (.binary (.raw field) "from" value)) =
          [rawMark field] ++ .blank :: .plain "from" :: .blank :: value.marks d := by
        simp [argumentMarks, Expr.marks, spaced_cons_cons, rawMark, trim]
      rw [marks]
      have leads : leadsValues "from" = true := leadsValues_of (by decide)
      intro cs ending
      refine .then_blank (.bare word lower chars (.cons (by decide) _) ?_) ?_
      · exact Lexeme.Name.longerKeyword?_beside (by decide) (rfl : _ = String.ofList "from".toList)
          (by decide +kernel)
      · have seated := h.seated child List.mem_cons_self isValue
        exact Everywhere.value leads seated _ cs ending.of_append.of_cons
    · by_cases query : ∃ q, e = .inlineQuery q
      · obtain ⟨q, rfl⟩ := query
        exact h.nested child _
      · rw [argumentMarks]
        · exact (h.content child (signs e rfl) isContent.1 follows).1
        · exact fun q same => query ⟨q, same⟩

theorem call {call : FunctionCall} (fits : call.Fits) (below : ∀ c ∈ call.children, n.Below c.2)
    (signs : ∀ e ∈ call.children.filterMap value?, e.leadsLooseSign = false) :
    (Expr.function call).Placed d := by
  obtain ⟨plain, _, named, isArgument⟩ := fits
  simp only [FunctionCall.children, List.forall_mem_append, List.forall_mem_cons, forall_maybe]
    at below
  obtain ⟨⟨_, argument⟩, window⟩ := below
  simp only [FunctionCall.children, List.filterMap_append, values_maybe, List.mem_append,
    Option.mem_toList] at signs
  have inner := h.argument argument (fun e mem => signs e (.inl (.inr mem))) isArgument
  have marks := marks_function (d := d) call plain
  have opening (cs : List Char) : ∃ rest, spellAll d (inParens (argumentMarks d call.argument) ++
      windowMarks d call.window) ++ cs = '(' :: rest := ⟨_, rfl⟩
  constructor
  · intro previous follows cs ending
    rw [marks] at ending ⊢
    refine .append ?_ (.append (inner.parens _) ?_)
    · obtain ⟨rest, split⟩ := opening cs
      rw [split]
      refine .qualified named follows.clear ?_ (fun _ => .call follows.clear) (.call (.of_ne rfl))
      exact Expr.OpensAs.not_digit (e := .function call) (.of_call call.name) rfl
    · cases found : call.window with
      | none => exact .nil
      | some o =>
        rw [found] at ending
        have last : Ending d (o.marks d) cs := ending.of_append.of_append.of_cons
        exact .append (a := [.blank]) .blank (h.overClause (window o found) _ cs last)
  · intro previous _
    rw [marks, lastRead_append, lastRead_append, lastRead_inParens]
    rcases call.window with _ | ⟨name⟩ | ⟨spec⟩
    · rfl
    · rw [windowMarks, Over.marks, spaced_cons_cons, spaced_singleton, lastRead_blank,
        lastRead_append, lastRead_blank, lastRead_of_tokens rfl]
      rfl
    · rw [windowMarks, Over.marks, lastRead_blank, lastRead_cons, lastRead_inParens]
      rfl
  · intro cs _
    obtain ⟨rest, split⟩ := opening cs
    rw [marks, spellAll_append, List.append_assoc, split]
    exact Expr.opens_qualified named fun _ => .of_call call.name

end Node.PartsPlaced

namespace Expr

theorem unary_placed {operator : String} {operand : Expr}
    (h : (Node.expr (.unary operator operand)).PartsPlaced d)
    (fits : (Expr.unary operator operand).Fits)
    (legible : (Node.expr (.unary operator operand)).Legible d)
    (isValue : (Expr.unary operator operand).isValue) : (Expr.unary operator operand).Placed d := by
  have other : operator ≠ "distinct" := by simpa [Expr.isValue] using isValue
  have below : Node.Below (.expr (.unary operator operand)) (.expr operand) :=
    .child "expression" (by simp [Node.children, Expr.children])
  have isOperand : operand.IsOperand operator := fits.resolve_left other
  unfold Expr.IsOperand at isOperand
  split at isOperand
  case h_1 power found =>
    have seated : operand.Seated d := ⟨h.value operand below isOperand.1,
      legible.signs operand (List.mem_cons_of_mem _ List.mem_cons_self)⟩
    by_cases sign : operator ∈ Power.signs
    · exact placed_sign sign legible.alone seated
    · have word : operator = "not" := by
        simpa [Power.prefix?, sign] using congrArg Option.isSome found
      subst word
      exact placed_not seated
  case h_2 =>
    obtain ⟨rfl, q, rfl⟩ := isOperand
    exact placed_exists (h.nested below _)

theorem binary_placed {left right : Expr} {operator : String}
    (h : (Node.expr (.binary left operator right)).PartsPlaced d)
    (fits : (Expr.binary left operator right).Fits)
    (legible : (Node.expr (.binary left operator right)).Legible d)
    (isValue : (Expr.binary left operator right).isValue) :
    (Expr.binary left operator right).Placed d := by
  have other : operator ≠ "from" := by simpa [Expr.isValue] using isValue
  have leftBelow : Node.Below (.expr (.binary left operator right)) (.expr left) :=
    .child "left" (by simp [Node.children, Expr.children])
  have rightBelow : Node.Below (.expr (.binary left operator right)) (.expr right) :=
    .child "right" (by simp [Node.children, Expr.children])
  obtain ⟨power, found, _, leftValue, _, isRight⟩ := fits.resolve_left other
  have sign : right.leadsLooseSign = false := legible.signs right List.mem_cons_self
  refine placed_binary found legible.alone (h.value left leftBelow leftValue) ⟨?_, sign⟩
  rcases isRight with ⟨_, tuple⟩ | ⟨rightValue, _⟩
  · cases right with
    | tuple es =>
      exact placed_tuple (h.values rightBelow (values_each _ es) (h.fits _ rightBelow))
    | _ => cases tuple
  · exact h.value right rightBelow rightValue

theorem cast_placed {input : Expr} {ref : TypeRef} (h : (Node.expr (.cast input ref)).PartsPlaced d)
    (legible : (Node.expr (.cast input ref)).Legible d) (isValue : input.isValue) :
    (Expr.cast input ref).Placed d := by
  have placed := h.value input (.child "input" (by simp [Node.children, Expr.children])) isValue
  have below : (Node.expr (.cast input ref)).Below (.expr (.type ref)) :=
    .child "type" (by simp [Node.children, Expr.children])
  have type := h.typeRef below
  by_cases primary : input.isPrimary = true
  · exact placed_colons primary placed type (legible.alone primary)
  · have seated : input.Seated d := ⟨placed, legible.signs input List.mem_cons_self⟩
    exact placed_castCall (by simpa using primary) seated type

theorem branch_settles {b : Branch} (key : b.key.Seated d) (value : b.value.Seated d) :
    Everywhere d (b.marks d) := by
  obtain ⟨key', value'⟩ := b
  have leads : leadsValues "when" = true := leadsValues_of (by decide)
  have marks : Branch.marks d ⟨key', value'⟩ = .plain "when" :: .blank ::
      (key'.marks d ++ .blank :: .plain "then" :: .blank :: value'.marks d) := by
    simp [Branch.marks, spaced_cons_cons]
  rw [marks]
  exact .keyword_then (leadsValues.word leads).1 (leadsValues.word leads).2
    (settles_left key.toPlaced (leadsValues.follows leads key.sign) fun _ _ =>
      Everywhere.value (leadsValues_of (by decide)) value _)

theorem switch_settles {s : Switch} (branches : ∀ b ∈ s.branches, b.key.Seated d ∧ b.value.Seated d)
    (otherwise : ∀ e ∈ s.otherwise, e.Seated d) : Everywhere d (s.marks d) := by
  have each : Everywhere d (spaced (branchesMarks d s.branches)) := by
    rw [branchesMarks_eq]
    exact .spaced (List.forall_mem_map.2 fun b mem => branch_settles (branches b mem).1
      (branches b mem).2)
  obtain ⟨bs, found⟩ := s
  cases found with
  | none =>
    rw [Switch.marks]
    exact each
  | some e =>
    have marks : Switch.marks d ⟨bs, some e⟩ =
        spaced (branchesMarks d bs) ++ .blank :: .plain "else" :: .blank :: e.marks d := by
      simp [Switch.marks, spaced_cons_cons]
    rw [marks]
    exact fun previous => (each previous).then_blank 
      (Everywhere.value (leadsValues_of (by decide)) (otherwise e rfl) _)

/-- The rest of a `case` after its keyword. -/
theorem placed_case {subject : Option Expr} {switch : Switch} (first : ∀ e ∈ subject, e.Seated d)
    (rest : Everywhere d (switch.marks d)) : (Expr.case subject switch).Placed d := by
  have leads : leadsValues "case" = true := leadsValues_of (by decide)
  have complete := (leadsValues.word leads).1
  have isEnd : Keyword.isComplete "end" = true := by decide
  have last : Everywhere d (switch.marks d ++ .blank :: [.plain "end"]) :=
    fun previous => (rest previous).then_blank (.keyword isEnd (Keyword.not_extendable (by decide)))
  obtain ⟨inner, settles, marks⟩ : ∃ inner, Settles d (some (keywordToken "case")) inner ∧
      (Expr.case subject switch).marks d = .plain "case" :: .blank :: inner ∧
        ∀ previous, lastRead previous inner = some (keywordToken "end") := by
    cases subject with
    | none =>
      refine ⟨_, last _, by simp [Expr.marks, spaced_cons_cons], fun previous => ?_⟩
      rw [lastRead_append, lastRead_blank, lastRead_of_tokens (tokens_keyword isEnd)]
      rfl
    | some e =>
      refine ⟨e.marks d ++ .blank :: (switch.marks d ++ .blank :: [.plain "end"]),
        settles_left (first e rfl).toPlaced (leadsValues.follows leads (first e rfl).sign)
          fun _ _ => last _,
        by simp [Expr.marks, spaced_cons_cons], fun previous => ?_⟩
      rw [lastRead_append, lastRead_blank, lastRead_append, lastRead_blank,
        lastRead_of_tokens (tokens_keyword isEnd)]
      rfl
  constructor
  · intro previous _
    rw [marks.1]
    exact .keyword_then complete (leadsValues.word leads).2 settles
  · intro previous _
    rw [marks.1, lastRead_cons, lastRead_blank, marks.2]
    decide
  · intro cs _
    rw [marks.1]
    exact .of_keyword "case" (by decide) (fun same => absurd same (by decide)) (.cons (by decide) _)

theorem case_placed {subject : Option Expr} {switch : Switch}
    (h : (Node.expr (.case subject switch)).PartsPlaced d) (fits : (Expr.case subject switch).Fits)
    (legible : (Node.expr (.case subject switch)).Legible d) :
    (Expr.case subject switch).Placed d := by
  obtain ⟨subjectValue, _, otherwiseValue⟩ := fits
  have children : ∀ c ∈ (Expr.case subject switch).children,
      Node.Below (.expr (.case subject switch)) c.2 := fun c mem => .child _ mem
  simp only [Expr.children, List.forall_mem_append, forall_maybe, List.forall_mem_cons,
    List.not_mem_nil, false_implies, implies_true, and_true] at children
  obtain ⟨subjectBelow, switchBelow⟩ := children
  have parts := switchBelow.children
  simp only [Node.children, List.forall_mem_append, forall_each, forall_maybe] at parts
  have first (e : Expr) (mem : e ∈ subject) : e.Seated d := by
    refine ⟨h.value e (subjectBelow e mem) (subjectValue e mem), legible.signs e ?_⟩
    simp [Node.awaited, Node.children, Expr.children, values_maybe, Option.mem_def.1 mem]
  have last (e : Expr) (mem : e ∈ switch.otherwise) : e.Seated d := by
    refine h.seated switchBelow ?_ (otherwiseValue e mem)
    simp [Node.awaited, Node.children, values_maybe, Option.mem_def.1 mem]
  refine placed_case first (switch_settles (fun b mem => ?_) last)
  obtain ⟨key, value⟩ := h.fits _ (parts.1 b mem)
  exact ⟨h.seated (parts.1 b mem) List.mem_cons_self key,
    h.seated (parts.1 b mem) (List.mem_cons_of_mem _ List.mem_cons_self) value⟩

theorem placed_arrayQuery {q : Query} (h : Settles d (some openToken) (q.marks d)) :
    (Expr.array (.inlineQuery q)).Placed d := by
  have complete : Keyword.isComplete "array" = true := by decide
  have marks : (Expr.array (.inlineQuery q)).marks d = [Mark.plain "array"] ++ inParens (q.marks d) := by
    simp [Expr.marks]
  constructor
  · intro previous _ cs _
    rw [marks]
    exact .append (.keyword complete (.cons (by decide) _)
      (Lexeme.Name.longerKeyword?_single (by decide))) (h.parens cs)
  · intro previous _
    rw [marks, lastRead_append, lastRead_inParens]
    rfl
  · intro cs _
    rw [marks]
    exact .of_keyword "array" (by decide) (fun same => absurd same (by decide)) (.cons (by decide) _)

/-- Values in square brackets. Where names have square brackets too, the end of an array is not told
from that of a name before it. -/
theorem placed_arrayList {es : List Expr} (each : ∀ e ∈ es, e.Seated d)
    (legible : (Expr.array (.list es)).Legible d) : (Expr.array (.list es)).Placed d := by
  obtain ⟨star, brackets⟩ := legible
  have complete : Keyword.isComplete "array" = true := by decide
  have marks : (Expr.array (.list es)).marks d = [Mark.plain "array"] ++ ([Mark.plain "["] ++
      (commaSeparated (exprsMarks d es) ++ [Mark.plain "]"])) := by
    simp [Expr.marks]
  have inner (cs : List Char) :
      Stands d (some openBracketToken) (commaSeparated (exprsMarks d es)) (']' :: cs) := by
    refine values_settle each (fun e head => ?_) _ (.of_unquoted (by decide) ?_ _)
    · exact (each e (List.mem_of_mem_head? head)).follows_starless rfl rfl (star e head)
    · rintro quoted closer
      rw [← Expr.marks, brackets closer.symm] at quoted
      cases quoted
  constructor
  · intro previous _ cs _
    rw [marks]
    refine .append (.keyword complete (.cons (by decide) _)
      (Lexeme.Name.longerKeyword?_single (by decide))) ?_
    rw [lastRead_of_tokens (tokens_keyword complete)]
    refine .append .openBracket ?_
    rw [lastRead_of_tokens tokens_openBracket]
    exact .append (inner cs) .closeBracket
  · intro previous _
    rw [marks, lastRead_append, lastRead_append, lastRead_append,
      lastRead_of_tokens tokens_closeBracket]
    rfl
  · intro cs _
    rw [marks]
    exact .of_keyword "array" (by decide) (fun same => absurd same (by decide)) (.cons (by decide) _)

theorem array_placed {content : Expr} (h : (Node.expr (.array content)).PartsPlaced d)
    (fits : (Expr.array content).Fits) (legible : (Expr.array content).Legible d) :
    (Expr.array content).Placed d := by
  have below : Node.Below (.expr (.array content)) (.expr content) :=
    .child "expression" (by simp [Node.children, Expr.children])
  rcases fits with ⟨q, rfl⟩ | ⟨es, rfl, areValues⟩
  · exact placed_arrayQuery (h.nested below _)
  · exact placed_arrayList (h.list below areValues) legible

/-- Every value stands where it may once what it holds does. -/
theorem placed {e : Expr} (h : (Node.expr e).PartsPlaced d) (fits : e.Fits)
    (own : (Node.expr e).Legible d) (isValue : e.isValue) : e.Placed d := by
  have legible : e.Legible d := own.alone
  cases e with
  | raw _ | type _ | list _ => cases isValue
  | literal value => exact placed_literal legible
  | column ref => exact placed_column fits
  | parameter name => exact placed_parameter legible
  | specifiedString specifier value =>
    obtain ⟨⟨text, rfl, closed⟩, single⟩ := legible
    change FitsSpecifier specifier (.string text) at fits
    by_cases tight : specifier ∈ tightSpecifiers
    · exact placed_tightString tight closed
    · simp only [FitsSpecifier, tight, if_false] at fits
      exact placed_typedString tight fits.1 fits.2.1 (single.resolve_left tight) closed
  | function call => exact h.call fits (fun c mem => .child _ mem) own.signs
  | unary operator operand => exact unary_placed h fits own isValue
  | binary left operator right => exact binary_placed h fits own isValue
  | between operand lower upper negated =>
    obtain ⟨⟨first, _⟩, ⟨second, _⟩, third, _⟩ := fits
    have part (e : Expr) (role : String) (isValue : e.isValue)
        (mem : (role, Node.expr e) ∈ (Expr.between operand lower upper negated).children) :
        e.Placed d := h.value e (.child role mem) isValue
    exact placed_between (part operand "expression" first (by simp [Expr.children]))
      ⟨part lower "lower" second (by simp [Expr.children]), own.signs lower List.mem_cons_self⟩
      ⟨part upper "upper" third (by simp [Expr.children]),
        own.signs upper (List.mem_cons_of_mem _ List.mem_cons_self)⟩
  | cast input ref => exact cast_placed h own fits
  | case subject switch => exact case_placed h fits own
  | array content => exact array_placed h fits legible
  | tuple es =>
    have children : ∀ c ∈ (Expr.tuple es).children, Node.Below (.expr (.tuple es)) c.2 :=
      fun c mem => .child _ mem
    simp only [Expr.children, forall_each] at children
    have awaited : (Node.expr (.tuple es)).awaited = es := values_each _ es
    exact placed_tuple fun e mem =>
      ⟨h.value e (children e mem) (fits e mem), own.signs e (by rwa [awaited])⟩
  | paren inner =>
    exact placed_paren ⟨h.value inner (.child "expression"
      (by simp [Node.children, Expr.children])) fits, own.signs inner List.mem_cons_self⟩
  | inlineQuery q =>
    exact placed_inlineQuery (h.query q (.child "query" (by simp [Node.children, Expr.children])) _)

end Expr

end SqlQuery
