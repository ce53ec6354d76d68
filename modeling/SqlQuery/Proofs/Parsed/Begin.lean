import SqlQuery.Proofs.Reading.Token
import SqlQuery.Grammar.Query

/-!
The token that an operand or a query that has been read begins with.
-/

namespace SqlQuery.Grammar

open Rule

variable {scope : Scope} {t : Token} {ts rest : List Token} {q : Query}

theorem operand_sign {power : Nat} (h : Power.unary? t = some power) : operand scope (t :: ts) =
    (skip >>= fun _ => .unary t.text <$> scope.here.expr power) (t :: ts) := by
  simp only [operand, bind, StateT.bind, Rule.peek, Except.bind, List.head?_cons, h]

theorem operand_primary (h : Power.unary? t = none) :
    operand scope (t :: ts) = primary scope t (t :: ts) := by
  simp only [operand, bind, StateT.bind, Rule.peek, Except.bind, List.head?_cons, h]

theorem keywordOperand_opens {keyword : String} {e : Expr}
    (ran : keywordOperand scope keyword ts = .ok (e, rest)) : keyword ∈ Token.valueKeywords := by
  refine Decidable.byContradiction fun missing => ?_
  simp only [Token.valueKeywords, List.mem_cons, List.not_mem_nil, or_false, not_or] at missing
  simp only [keywordOperand, missing, beq_iff_eq, Bool.or_eq_true, or_self, if_false] at ran
  exact fail_ne_ok ran

theorem unary_opens {power : Nat} (h : Power.unary? t = some power) :
    t.opensValue = true := by
  unfold Power.unary? at h
  split at h
  case isTrue sign =>
    simp only [Bool.and_eq_true, beq_iff_eq] at sign
    simpa only [Token.opensValue, sign.1] using sign.2
  case isFalse =>
    split at h
    case isTrue negation =>
      obtain ⟨kind, text⟩ := Token.isCommand_iff.1 negation
      simp only [Token.opensValue, kind, text]
      decide
    case isFalse => cases h

/-- An operand begins with what a value may begin with. -/
theorem operand_opens {e : Expr} (ran : operand scope ts = .ok (e, rest)) :
    ∃ t ∈ ts.head?, t.opensValue = true := by
  cases ts with
  | nil => cases ran
  | cons t ts =>
    refine ⟨t, rfl, ?_⟩
    cases unary : Power.unary? t with
    | some power => exact unary_opens unary
    | none =>
      rw [operand_primary unary] at ran
      unfold primary at ran
      cases kind : t.kind with
      | command =>
        rw [kind] at ran
        simpa [Token.opensValue, kind] using keywordOperand_opens ran
      | literal | escapedString | parameter | openParen | identifier =>
        simp only [Token.opensValue, kind]
      | _ =>
        rw [kind] at ran
        exact absurd ran fail_ne_ok

theorem isCommand_of_lacks {keyword : String} (mem : keyword ∈ Token.queryKeywords)
    (lacks : Lacks Token.opensQuery (t :: ts)) : t.isCommand keyword = false := by
  cases found : t.isCommand keyword with
  | false => rfl
  | true =>
    obtain ⟨kind, rfl⟩ := Token.isCommand_iff.1 found
    exact absurd (lacks t rfl) (by simpa [Token.opensQuery, kind] using mem)

theorem eatKeyword_lacks {keyword : String} (mem : keyword ∈ Token.queryKeywords) :
    Triple (Lacks Token.opensQuery) (eatKeyword keyword)
      fun found ts => found = false ∧ Lacks Token.opensQuery ts :=
  .eat (fun _ _ lacks found => absurd found (by simp [isCommand_of_lacks mem lacks]))
    fun _ lacks _ => ⟨rfl, lacks⟩

theorem term_lacks (tables : Option With) :
    Triple (Lacks Token.opensQuery) (term scope tables) fun _ _ => False := by
  have mem : "select" ∈ Token.queryKeywords := by decide
  have selects : Triple (Lacks Token.opensQuery) (selectClause scope.here) fun _ _ => False :=
    .bind (Q := fun _ _ => False) (.require fun t ts lacks found => absurd found
      (by simp [isCommand_of_lacks mem lacks])) fun _ => .vacuous
  refine (eatKeyword_lacks (by decide)).bind fun found => .ite (fun yes => ?_) fun _ => ?_
  · exact Triple.vacuous.pre fun ts none => Bool.false_ne_true (none.1.symm.trans yes)
  · exact .map (.bind (selects.pre fun _ => And.right) fun _ => .vacuous)

/-- A query begins with a keyword of its own. -/
theorem query_opens (ran : query scope ts = .ok (q, rest)) :
    ∃ t ∈ ts.head?, t.opensQuery = true := by
  have tables : Triple (Lacks Token.opensQuery) (commonTables scope)
      fun _ => Lacks Token.opensQuery :=
    .after (R := fun _ => False) ((eatKeyword_lacks (by decide)).post
      fun _ _ h => by rw [h.1]; exact h.2) .vacuous
  have nothing : Triple (Lacks Token.opensQuery) (query scope) fun _ _ => False :=
    tables.bind fun found => (term_lacks found).bind fun _ => .vacuous
  refine Classical.byContradiction fun none => nothing ts q rest (fun t head => ?_) ran
  cases opens : t.opensQuery with
  | false => rfl
  | true => exact absurd ⟨t, head, opens⟩ none

end SqlQuery.Grammar
