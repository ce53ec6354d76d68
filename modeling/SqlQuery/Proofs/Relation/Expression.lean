import SqlQuery.Grammar.Expression
import SqlQuery.Proofs.Rule.Relation

/-!
The rules for expressions are put together of steps that keep every relation between rules: each of
them is related to itself as soon as the levels are that it calls. None looks further ahead than past
two tokens, and none asks how many levels are left.
-/

namespace SqlQuery.Grammar

open Rule
open Rule.Relation (Holds)

variable {R inner : Relation} {level level' : Level} {scope scope' : Scope}

theorem startsQuery_related {n : Nat} (near : n ≤ 2) :
    R.Holds (startsQuery n) (startsQuery n) :=
  .look near _

theorem values_related (h : level.Related R level') :
    R.Holds (values level) (values level') :=
  (h.expr 0).commaList

theorem valuesBefore_related (h : level.Related R level') (close : Kind) :
    R.Holds (valuesBefore close level) (valuesBefore close level') :=
  Holds.choose (.look (Nat.zero_le 2) _) (.ret []) (values_related h)

theorem argumentValues_related (h : level.Related R level') :
    R.Holds (argumentValues level) (argumentValues level') := by
  refine (values_related h).bind fun values => ?_
  split
  · exact .ret _
  · exact .ret _

theorem nestedQuery_related (h : level.Related R level') :
    R.Holds (nestedQuery level) (nestedQuery level') :=
  h.query.bind fun query => (Holds.require _ _).bind fun _ => .ret query

theorem parenthesizedQuery_related (h : scope.Related R inner scope') :
    R.Holds (parenthesizedQuery scope) (parenthesizedQuery scope') :=
  (Holds.require _ _).bind fun _ => (h.enter fun _ _ => nestedQuery_related).map _

theorem parenthesized_related (h : scope.Related R inner scope') :
    R.Holds (parenthesized scope) (parenthesized scope') := by
  refine Holds.choose (startsQuery_related (by decide)) (parenthesizedQuery_related h) ?_
  refine Holds.skip.bind fun _ => Holds.bind (h.enter fun level level' related => ?_) ?_
  · exact (values_related related).bind fun values => (Holds.require _ _).bind fun _ => .ret values
  · intro values
    split
    · exact .ret _
    · exact .ret _

theorem membership_related (h : scope.Related R inner scope') (power : Nat) :
    R.Holds (membership scope power) (membership scope' power) := by
  refine Holds.bind (.look (Nat.zero_le 2) _) fun opened => ?_
  refine Holds.bind (startsQuery_related (by decide)) fun starts => ?_
  refine .ite (h.here.expr power) (Holds.skip.bind fun _ => .map _ ?_)
  refine h.enter fun level level' related => (valuesBefore_related related _).bind fun values => ?_
  exact (Holds.require _ _).bind fun _ => .ret values

/-- The furthest that any rule looks ahead. -/
theorem timeZone_related : R.Holds timeZone timeZone := by
  refine (Holds.look (by decide) _).bind fun time => (Holds.look (by decide) _).bind fun zone => ?_
  refine .ite (Holds.choose (.eat _) ?_ (Holds.choose (.eat _) ?_ (.ret _))) (.ret _)
  · exact Holds.skip.bind fun _ => Holds.skip.bind fun _ => .ret _
  · exact Holds.skip.bind fun _ => Holds.skip.bind fun _ => .ret _

theorem typeSuffix_related (name : String) : R.Holds (typeSuffix name) (typeSuffix name) :=
  .ite (Holds.choose (.eat _) (.ret _) (.ret _))
    (.ite (Holds.choose (.eat _) (.ret _) (.ret _)) (.ite timeZone_related (.ret _)))

theorem typeRef_related (h : level.Related R level') :
    R.Holds (typeRef level) (typeRef level') := by
  refine (Holds.expect _ _).bind fun name => (typeSuffix_related name).bind fun suffix => ?_
  refine Holds.bind (Holds.after (.eat _) ?_) fun argument => .ret (TypeRef.mk _ argument)
  exact (values_related h).bind fun values => (Holds.require _ _).bind fun _ => .ret _

theorem operatorSuffix_related (h : scope.Related R inner scope') (operator : String) (power : Nat) :
    R.Holds (operatorSuffix scope operator power) (operatorSuffix scope' operator power) := by
  refine .ite ((typeRef_related h.here).map _) (.ite ?_ (.ite ((membership_related h power).map _) ?_))
  · refine (h.here.expr power).bind fun lower => (Holds.require _ _).bind fun _ => ?_
    exact (h.here.expr power).bind fun upper => .ret _
  · exact (h.here.expr power).map _

theorem suffixes_related (h : scope.Related R inner scope') (floor : Nat) :
    R.Holds (many (suffix scope floor)) (many (suffix scope' floor)) := by
  refine Holds.many_accept rfl rfl fun o => ?_
  cases o with
  | none => exact .ret none
  | some found => exact (operatorSuffix_related h found.1 found.2).map some

theorem direction_related : R.Holds direction direction :=
  Holds.choose (.eat _) (.ret _) ((Holds.eat _).bind fun _ => .ret _)

theorem nullsPosition_related : R.Holds nullsPosition nullsPosition :=
  Holds.choose (.eat _) (.ret _) (Holds.choose (.eat _) (.ret _) (.ret _))

theorem orderItem_related (h : level.Related R level') :
    R.Holds (orderItem level) (orderItem level') :=
  (h.expr 0).bind fun value => direction_related.bind fun direction =>
    nullsPosition_related.bind fun nulls => .ret (OrderItem.mk value direction nulls)

theorem orderBy_related (h : level.Related R level') :
    R.Holds (orderBy level) (orderBy level') :=
  .after (.eat _) (orderItem_related h).commaList

theorem bound_related (h : level.Related R level') :
    R.Holds (bound level) (bound level') := by
  refine Holds.choose (.eat _) (Holds.choose (.eat _) (.ret _) ?_)
    (Holds.choose (.eat _) ?_ ((h.expr 0).bind fun offset => Holds.choose (.eat _) (.ret _) ?_))
  · exact (Holds.require _ _).bind fun _ => .ret _
  · exact (Holds.require _ _).bind fun _ => .ret _
  · exact (Holds.require _ _).bind fun _ => .ret _

theorem frame_related (h : level.Related R level') :
    R.Holds (frame level) (frame level') := by
  refine (Holds.accept frameUnit?).bind fun o => ?_
  cases o with
  | none => exact .ret none
  | some unit =>
    refine Holds.choose (.eat _) ?_ ((bound_related h).bind fun start => .ret _)
    refine (bound_related h).bind fun start => (Holds.require _ _).bind fun _ => ?_
    exact (bound_related h).bind fun stop => .ret _

theorem windowSpec_related (h : level.Related R level') :
    R.Holds (windowSpec level) (windowSpec level') :=
  (Holds.after (.eat _) (values_related h)).bind fun partition =>
    (orderBy_related h).bind fun order => (frame_related h).bind fun frame =>
      .ret (WindowSpec.mk partition order frame)

theorem windowRef_related (h : scope.Related R inner scope') :
    R.Holds (windowRef scope) (windowRef scope') := by
  refine Holds.choose (.look (Nat.zero_le 2) _) (Holds.name.map _) ?_
  refine (Holds.require _ _).bind fun _ => .map _ (h.enter fun level level' related => ?_)
  exact (windowSpec_related related).bind fun spec => (Holds.require _ _).bind fun _ => .ret spec

theorem extractField_related (name : String) :
    R.Holds (extractField name) (extractField name) := by
  refine (Holds.look (by decide) _).bind fun follows => .ite ?_ (.ret none)
  refine (Holds.accept _).bind fun field => ?_
  exact .ite (Holds.skip.bind fun _ => .ret field) (.ret field)

theorem argument_related (h : level.Related R level') (name : String) :
    R.Holds (argument name level) (argument name level') := by
  refine Holds.choose (.look (Nat.zero_le 2) _) (.ret none) (Holds.choose (.eat _) (.ret _) ?_)
  refine Holds.choose (.eat _) ((argumentValues_related h).bind fun value => .ret _) ?_
  refine Holds.choose (startsQuery_related (by decide)) (h.query.bind fun query => .ret _) ?_
  refine (extractField_related name).bind fun o => ?_
  cases o with
  | none => exact (argumentValues_related h).bind fun value => .ret _
  | some field => exact (h.expr 0).bind fun source => .ret _

theorem functionCall_related (h : scope.Related R inner scope') (namespaces : List String)
    (name : String) :
    R.Holds (functionCall scope namespaces name) (functionCall scope' namespaces name) := by
  refine (Holds.require _ _).bind fun _ => Holds.bind (h.enter fun level level' related => ?_) ?_
  · refine (argument_related related name).bind fun argument => ?_
    exact (Holds.require _ _).bind fun _ => .ret argument
  · exact fun argument => (Holds.after (.eat _) (windowRef_related h)).bind fun window => .ret _

theorem pathUpTo_settled : Settled pathUpTo := by
  have empty (bound : List Token) : pathUpTo bound [] = fail "identifier" [] := by
    cases bound <;> rfl
  intro bound
  induction bound with
  | nil =>
    intro bound' ts long _
    obtain rfl := List.length_eq_zero_iff.1 (Nat.le_zero.1 long)
    rw [empty, empty]
  | cons t bound ih =>
    intro bound' ts long long'
    cases bound' with
    | nil =>
      obtain rfl := List.length_eq_zero_iff.1 (Nat.le_zero.1 long')
      rw [empty, empty]
    | cons t' bound' =>
      refine bind_congr_ok fun name rest ran => ?_
      have short := expect_shorter ran
      by_cases wildcard : (name == wildcardName) = true
      · rw [if_pos wildcard, if_pos wildcard]
      · rw [if_neg wildcard, if_neg wildcard]
        refine bind_congr_ok fun dot later ran' => ?_
        have le := shortens_eat rest dot later ran'
        simp only [List.length_cons] at long long'
        cases dot with
        | false => rfl
        | true => exact bind_congr_run (ih bound' later (by omega) (by omega))

theorem pathUpTo_related (bound : List Token) : R.Holds (pathUpTo bound) (pathUpTo bound) := by
  induction bound with
  | nil => exact .fail _
  | cons t bound ih =>
    refine (Holds.expect _ _).bind fun name => .ite (.ret _) (Holds.choose (.eat _) ?_ (.ret _))
    exact ih.bind fun names => .ret _

theorem path_related : R.Holds path path := by
  have bounded := R.bounded pathUpTo_settled pathUpTo_settled pathUpTo_related
  exact bounded

theorem typedString_related (allowed : Bool) :
    R.Holds (typedString allowed) (typedString allowed) :=
  .ite (.accept _) (.ret none)

theorem named_related (h : scope.Related R inner scope') :
    R.Holds (named scope) (named scope') := by
  refine path_related.bind fun names => (Holds.look (Nat.zero_le 2) _).bind fun isCall => ?_
  refine .ite ((functionCall_related h _ _).map _) ((typedString_related _).bind fun o => ?_)
  cases o with
  | none => exact .ret _
  | some text => exact .ret _

theorem branch_related (h : level.Related R level') :
    R.Holds (branch level) (branch level') :=
  (h.expr 0).bind fun key => (Holds.require _ _).bind fun _ => (h.expr 0).bind fun value =>
    .ret (Branch.mk key value)

theorem caseSubject_related (h : level.Related R level') :
    R.Holds (caseSubject level) (caseSubject level') :=
  Holds.choose (.look (Nat.zero_le 2) _) (.ret none) ((h.expr 0).map some)

theorem branches_related (h : level.Related R level') :
    R.Holds (branches level) (branches level') :=
  (branch_related h).many_after.bind fun _ => .ite (.fail _) (.ret _)

theorem caseExpr_related (h : scope.Related R inner scope') :
    R.Holds (caseExpr scope) (caseExpr scope') := by
  refine Holds.skip.bind fun _ => h.enter fun level level' related => ?_
  refine (caseSubject_related related).bind fun subject => (branches_related related).bind fun branches => ?_
  refine (Holds.after (.eat _) (related.expr 0)).bind fun otherwise => ?_
  exact (Holds.require _ _).bind fun _ => .ret _

theorem castExpr_related (h : scope.Related R inner scope') :
    R.Holds (castExpr scope) (castExpr scope') := by
  refine Holds.skip.bind fun _ => (Holds.require _ _).bind fun _ => ?_
  refine h.enter fun level level' related => (related.expr 0).bind fun input => ?_
  refine (Holds.require _ _).bind fun _ => (typeRef_related related).bind fun type => ?_
  exact (Holds.require _ _).bind fun _ => .ret _

theorem arrayExpr_related (h : scope.Related R inner scope') :
    R.Holds (arrayExpr scope) (arrayExpr scope') := by
  refine Holds.skip.bind fun _ => Holds.choose (.eat _) ?_ ?_
  · refine h.enter fun level level' related => (valuesBefore_related related _).bind fun values => ?_
    exact (Holds.require _ _).bind fun _ => .ret _
  · refine (Holds.look (Nat.zero_le 2) _).bind fun opened => ?_
    refine (startsQuery_related (by decide)).bind fun starts => ?_
    exact .ite ((parenthesizedQuery_related h).map _) (.fail _)

theorem keywordOperand_related (h : scope.Related R inner scope') (keyword : String) :
    R.Holds (keywordOperand scope keyword) (keywordOperand scope' keyword) := by
  refine .ite (Holds.skip.bind fun _ => .ret _) (.ite (Holds.skip.bind fun _ => .ret _) ?_)
  refine .ite (caseExpr_related h) (.ite (castExpr_related h) (.ite (arrayExpr_related h) (.ite ?_ ?_)))
  · exact Holds.skip.bind fun _ => (parenthesizedQuery_related h).map _
  · exact .fail _

theorem primary_related (h : scope.Related R inner scope') (t : Token) :
    R.Holds (primary scope t) (primary scope' t) := by
  unfold primary
  cases t.kind with
  | literal => exact Holds.skip.bind fun _ => .ret _
  | escapedString => exact Holds.skip.bind fun _ => .ret _
  | parameter => exact Holds.skip.bind fun _ => .ret _
  | openParen => exact parenthesized_related h
  | identifier => exact named_related h
  | command => exact keywordOperand_related h _
  | _ => exact .fail _

theorem operand_related (h : scope.Related R inner scope') :
    R.Holds (operand scope) (operand scope') := by
  refine Holds.peek.bind fun o => ?_
  cases o with
  | none => exact .fail _
  | some t =>
    dsimp only
    cases Power.unary? t with
    | some power => exact Holds.skip.bind fun _ => (h.here.expr power).map _
    | none => exact primary_related h t

theorem expression_related (h : scope.Related R inner scope') (floor : Nat) :
    R.Holds (expression scope floor) (expression scope' floor) :=
  (operand_related h).bind fun _ => (suffixes_related h floor).bind fun _ => .ret _

end SqlQuery.Grammar
