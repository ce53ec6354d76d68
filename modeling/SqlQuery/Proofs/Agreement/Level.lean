import SqlQuery.Proofs.Relation.Query
import SqlQuery.Proofs.Rule.Agreement

/-!
The levels of two runs, by induction on how many are allowed, as the only rule that regards them
stops where none is left.
-/

namespace SqlQuery.Grammar

open Rule

variable {deeper : Prop}

theorem scopeAt_succ_agrees {n m : Nat} (h : (levelAt n).Related (agreement deeper) (levelAt m))
    (scope : (scopeAt n).Related (agreement deeper) (agreement deeper) (scopeAt m)) :
    (scopeAt (n + 1)).Related (agreement deeper) (agreement deeper) (scopeAt (m + 1)) :=
  Scope.related_of_inside (levelAt_succ_related scope) (.some h)

theorem expr_zero (floor : Nat) (ts : List Token) :
    (levelAt 0).expr floor ts = Outcome.after 0 ts (.error (.tooDeep, 1)) := by
  simp only [levelAt, exprAt, Outcome.after, List.drop_zero]

theorem query_zero (ts : List Token) :
    (levelAt 0).query ts = Outcome.after 0 ts (.error (.tooDeep, 1)) := by
  simp only [levelAt, queryAt, Outcome.after, List.drop_zero]

/-- A rule that the limit stops takes no token, and so any rule may take its place. -/
theorem levelAt_zero_agrees {level : Level} (more : deeper) (h : level.Related (agreement deeper) level) :
    (levelAt 0).Related (agreement deeper) level := by
  refine ⟨fun floor ts ts' => ?_, fun ts ts' => ?_⟩
  · have reached := (h.expr floor).reaches_right ts'
    exact ⟨_, 0, expr_zero floor ts, fun _ => .inr ⟨more, ⟨1, rfl⟩, reached⟩⟩
  · have reached := h.query.reaches_right ts'
    exact ⟨_, 0, query_zero ts, fun _ => .inr ⟨more, ⟨1, rfl⟩, reached⟩⟩

theorem levelAt_agrees (deeper : Prop) (n : Nat) :
    (levelAt n).Related (agreement deeper) (levelAt n) ∧
      (scopeAt n).Related (agreement deeper) (agreement deeper) (scopeAt n) := by
  induction n with
  | zero =>
    have here : (levelAt 0).Related (agreement deeper) (levelAt 0) := by
      refine ⟨fun floor ts ts' => ?_, fun ts ts' => ?_⟩
      · exact ⟨_, 0, expr_zero floor ts, fun _ => .inl (expr_zero floor ts')⟩
      · exact ⟨_, 0, query_zero ts, fun _ => .inl (query_zero ts')⟩
    exact ⟨here, Scope.related_of_inside here .none⟩
  | succ n ih => exact ⟨levelAt_succ_related ih.2, scopeAt_succ_agrees ih.1 ih.2⟩

/-- More levels allowed change nothing that is done within the limit. -/
theorem levelAt_deeper {n m : Nat} (le : n ≤ m) :
    (levelAt n).Related (agreement True) (levelAt m) ∧
      (scopeAt n).Related (agreement True) (agreement True) (scopeAt m) := by
  induction n generalizing m with
  | zero =>
    have here := levelAt_zero_agrees trivial (levelAt_agrees True m).1
    cases m with
    | zero => exact ⟨here, Scope.related_of_inside here .none⟩
    | succ m => exact ⟨here, Scope.related_of_inside here (.more trivial (levelAt_agrees True m).1)⟩
  | succ n ih =>
    cases m with
    | zero => exact absurd le (Nat.not_succ_le_zero n)
    | succ m =>
      have inside := ih (Nat.le_of_succ_le_succ le)
      exact ⟨levelAt_succ_related inside.2, scopeAt_succ_agrees inside.1 inside.2⟩

theorem statementAt_agrees {n m : Nat} (h : (agreement deeper).Holds (queryAt n) (queryAt m)) :
    (agreement deeper).Holds (statementAt n) (statementAt m) :=
  statementAt_related (.stop .trailing) h

end SqlQuery.Grammar
